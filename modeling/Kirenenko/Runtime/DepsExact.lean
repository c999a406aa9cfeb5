import Kirenenko.Runtime.HashConsing
import Kirenenko.Runtime.Offsets
import Kirenenko.Runtime.SerializeCache

namespace Kirenenko
set_option autoImplicit true

/-- The labels that serialization of a label can come to. -/
inductive Reaches (t : LabelTable) : Nat → Nat → Prop where
  | refl : Reaches t l l
  | left : constOffset ≤ l → Reaches t (t.key l).l1 c → Reaches t l c
  | right : constOffset ≤ l → (t.key l).op ≠ Operators.Load.code → Reaches t (t.key l).l2 c →
      Reaches t l c

/-- A label whose serialization writes no cache: an input byte, or one that is cached. -/
def Settled (t : LabelTable) (l : Nat) : Prop := (t.key l).op = 0 ∨ (t.info l).expr ≠ none

/-- The comparisons of two labels that serialization comes to have a settled second operand. -/
def ComparesSettled (t : LabelTable) (label : Nat) : Prop :=
  ∀ c, Reaches t label c → (t.key c).op = Operators.fmemcmp.code → constOffset ≤ (t.key c).l1 →
    Settled t (t.key c).l2

/-- Serialization has filled caches with the offsets of their labels. -/
structure DepsFrame (t s : LabelTable) : Prop where
  frame : SerializeFrame t s
  deps : ∀ l e, (s.info l).expr = some e → (s.info l).deps = some (labelOffsets t l)

/-- The offsets of a label are added to a set. -/
def Adds (t : LabelTable) (label : Nat) (deps : Finset Nat) (p : Term × Finset Nat) : Prop :=
  p.2 = deps ∪ labelOffsets t label

section
variable {t : LabelTable}

theorem getInfo_deps (hl : label ≤ t.lastLabel) (s : LabelTable) (hs : DepsFrame t s) :
    ∃ info, getInfo label s = .ok info s ∧ info.toLabelKey = t.key label ∧
      (info.expr = none → (t.info label).expr = none) ∧
      ∀ e, info.expr = some e → info.deps = some (labelOffsets t label) := by
  obtain ⟨info, hinfo, hk, hnone⟩ := getInfo_frame hl s hs.frame
  obtain ⟨_, rfl, _⟩ := getInfo_ok hinfo
  exact ⟨_, hinfo, hk, hnone, hs.deps label⟩

theorem yields_liftZ3 {I : σ → Prop} (x : Except Z3Exception α) :
    Yields I (fun _ => True) (fun _ => True) (liftZ3 x : EStateM Exn σ α) := by
  cases x with
  | ok a => exact .pure trivial
  | error e => exact .throw trivial

theorem DepsFrame.modifyInfo {f : LabelInfo → LabelInfo} (h : DepsFrame t s)
    (hframe : SerializeFrame t (s.modifyInfo label f))
    (hf : ∀ e, (f (s.info label)).expr = some e →
      (f (s.info label)).deps = some (labelOffsets t label)) :
    DepsFrame t (s.modifyInfo label f) where
  frame := hframe
  deps l e he := by
    rcases modifyInfo_cases s label f l with ⟨rfl, hinfo⟩ | hinfo
    · rw [hinfo] at he ⊢
      exact hf e he
    · rw [hinfo] at he ⊢
      exact h.deps l e he

theorem yields_setTreeSize :
    Yields (DepsFrame t) (fun _ => True) (fun _ => True) (setTreeSize label n) := by
  apply Yields.update
  intro s hs
  apply hs.modifyInfo
  · exact hs.frame.modifyInfo (fun _ => rfl) (fun _ => rfl) (.inr fun _ => ⟨rfl, rfl⟩)
  · exact hs.deps label

theorem yields_cacheExpr (hfresh : (t.info label).expr = none)
    (hd : deps = labelOffsets t label) :
    Yields (DepsFrame t) (fun _ => True) (Adds t label ∅) (cacheExpr label e deps) := by
  refine .bind (.update ?_) fun _ _ => .pure (hd.trans (Finset.empty_union _).symm)
  intro s hs
  apply hs.modifyInfo
  · exact hs.frame.modifyInfo (fun _ => rfl) (fun _ => rfl) (.inl hfresh)
  · intro _ _
    exact congrArg some hd

theorem yields_copyTreeSize {x : SerializeM α} (hc : c ≤ t.lastLabel)
    (hx : Yields (DepsFrame t) (fun _ => True) P x) :
    Yields (DepsFrame t) (fun _ => True) P
      (getInfo c >>= fun i => setTreeSize label i.treeSize >>= fun _ => x) :=
  .read (getInfo_deps hc) fun _ _ => .bind yields_setTreeSize fun _ _ => hx

theorem yields_finish (hfresh : (t.info label).expr = none) (hd : deps = labelOffsets t label)
    (x : Except Z3Exception Term) :
    Yields (DepsFrame t) (fun _ => True) (Adds t label ∅)
      (liftZ3 x >>= fun e => cacheExpr label e deps) :=
  .bind (yields_liftZ3 x) fun _ _ => yields_cacheExpr hfresh hd

theorem yields_unary {F : Term → Except Z3Exception Term}
    {operand : SerializeM (Term × Finset Nat)} (hfresh : (t.info label).expr = none)
    (hn : labelOffsets t label = labelOffsets t c) (hc : c ≤ t.lastLabel)
    (hop : Yields (DepsFrame t) (fun _ => True) (Adds t c ∅) operand) :
    Yields (DepsFrame t) (fun _ => True) (Adds t label ∅)
      (operand >>= fun p => getInfo c >>= fun i => setTreeSize label i.treeSize >>= fun _ =>
        liftZ3 (F p.1) >>= fun e => cacheExpr label e p.2) := by
  refine hop.bind ?_
  intro p hp
  apply yields_copyTreeSize hc (yields_finish hfresh ?_ _)
  rw [hn, hp, Finset.empty_union]

theorem adds_const (h : ¬label ≥ constOffset) (e : Term) (deps : Finset Nat) :
    Adds t label deps (e, deps) := by
  rw [Adds, labelOffsets_const (Nat.lt_of_not_le h), Finset.union_empty]

section
variable {operand : Nat → Finset Nat → SerializeM (Term × Finset Nat)} {k : LabelKey}

theorem yields_memcmpOperand
    (hop : Yields (DepsFrame t) (fun _ => True) (Adds t k.l1 ∅) (operand k.l1 ∅))
    (hcmp : constOffset ≤ k.l1 → Settled t k.l2) :
    Yields (DepsFrame t) (fun _ => True)
      (fun p => Adds t k.l1 ∅ p ∧ (p.2 = ∅ ∨ Settled t k.l2)) (memcmpOperand mem operand k ∅) := by
  apply Yields.ite
  · intro hl
    exact hop.mono fun p hp => ⟨hp, .inr (hcmp hl)⟩
  · intro hl
    exact (yields_liftZ3 _).map fun e _ => ⟨adds_const hl e ∅, .inl rfl⟩

theorem yields_firstOperand
    (hop : Yields (DepsFrame t) (fun _ => True) (Adds t k.l1 ∅) (operand k.l1 ∅)) :
    Yields (DepsFrame t) (fun _ => True) (Adds t k.l1 ∅) (firstOperand z operand k val ∅) := by
  apply Yields.ite
  · intro _
    exact hop.map fun _ hp => hp
  · intro hl
    exact .pure (adds_const hl _ ∅)

theorem yields_secondOperand (deps : Finset Nat)
    (hop : Yields (DepsFrame t) (fun _ => True) (Adds t k.l2 ∅) (operand k.l2 ∅)) :
    Yields (DepsFrame t) (fun _ => True) (Adds t k.l2 deps)
      (secondOperand z operand k val deps) := by
  apply Yields.ite
  · intro _
    apply hop.map
    rintro ⟨e, deps2⟩ hp
    exact congrArg (deps ∪ ·) (hp.trans (Finset.empty_union _))
  · intro hl
    exact .pure (adds_const hl _ deps)

theorem yields_serializeNode (hfresh : (t.info label).expr = none)
    (hn : labelOffsets t label = nodeOffsets t.key info.toLabelKey (labelOffsets t))
    (h1 : info.l1 ≤ t.lastLabel) (h2 : info.op ≠ Operators.Load.code → info.l2 ≤ t.lastLabel)
    (hop1 : Yields (DepsFrame t) (fun _ => True) (Adds t info.l1 ∅) (operand info.l1 ∅))
    (hop2 : info.op ≠ Operators.Load.code → ∀ deps, deps = ∅ ∨ Settled t info.l2 →
      Yields (DepsFrame t) (fun _ => True) (Adds t info.l2 deps) (operand info.l2 deps))
    (hcmp : info.op = Operators.fmemcmp.code → constOffset ≤ info.l1 → Settled t info.l2)
    (hdeps : deps = ∅ ∨ info.op = 0) :
    Yields (DepsFrame t) (fun _ => True) (Adds t label deps)
      (serializeNode z mem operand label info deps) := by
  unfold serializeNode
  unfold nodeOffsets at hn
  by_cases h : info.op = 0
  · rw [if_pos h] at hn ⊢
    refine .bind (yields_liftZ3 _) fun _ _ => .bind yields_setTreeSize fun _ _ => .pure ?_
    rw [Adds, hn, Finset.union_comm]
    rfl
  rw [if_neg h] at hn ⊢
  obtain rfl : deps = ∅ := hdeps.resolve_right h
  clear h
  by_cases h : info.op = Operators.Load.code
  · rw [if_pos h] at hn ⊢
    apply Yields.read (getInfo_deps h1)
    rintro base ⟨hb, _⟩
    rw [← hb] at hn
    refine .bind (yields_liftZ3 _) fun _ _ => .bind yields_setTreeSize fun _ _ => ?_
    apply yields_cacheExpr hfresh
    rw [hn, Finset.empty_union]
  rw [if_neg h] at hn ⊢
  replace h2 := h2 h
  replace hop2 := hop2 h
  have hop2' := hop2 ∅ (.inl rfl)
  clear h
  by_cases h : info.op = Operators.ZExt.code
  · rw [if_pos h] at hn ⊢
    refine hop1.bind fun p hp => .bind (yields_liftZ3 _) fun _ _ => .bind (yields_liftZ3 _)
      fun _ _ => yields_copyTreeSize h1 (yields_finish hfresh ?_ _)
    rw [hn, hp, Finset.empty_union]
  rw [if_neg h] at hn ⊢
  clear h
  by_cases h : info.op = Operators.SExt.code
  · rw [if_pos h] at hn ⊢
    refine hop1.bind fun p hp => .bind (yields_liftZ3 _) fun _ _ =>
      yields_copyTreeSize h1 (yields_finish hfresh ?_ _)
    rw [hn, hp, Finset.empty_union]
  rw [if_neg h] at hn ⊢
  clear h
  by_cases h : info.op = Operators.Trunc.code
  · rw [if_pos h] at hn ⊢
    exact yields_unary hfresh hn h1 hop1
  rw [if_neg h] at hn ⊢
  clear h
  by_cases h : info.op = Operators.Extract.code
  · rw [if_pos h] at hn ⊢
    exact yields_unary hfresh hn h1 hop1
  rw [if_neg h] at hn ⊢
  clear h
  by_cases h : info.op = Operators.Not.code
  · rw [if_pos h] at hn ⊢
    exact .ite (fun _ => .throw trivial) fun _ => yields_unary hfresh hn h2 hop2'
  rw [if_neg h] at hn ⊢
  clear h
  by_cases h : info.op = Operators.Neg.code
  · rw [if_pos h] at hn ⊢
    exact .ite (fun _ => .throw trivial) fun _ =>
      yields_unary (F := fun e => checked (.neg e)) hfresh hn h2 hop2'
  rw [if_neg h] at hn ⊢
  clear h
  by_cases h : info.op = Operators.fmemcmp.code
  · rw [if_pos h] at hn ⊢
    refine (yields_memcmpOperand hop1 (hcmp h)).bind ?_
    rintro ⟨e1, deps⟩ ⟨hd, hs⟩
    refine .ite (fun _ => .throw trivial) fun _ => (hop2 deps hs).bind fun p hp =>
      .bind yields_setTreeSize fun _ _ => .bind (yields_liftZ3 _) fun _ _ => .pure ?_
    have hd1 : deps = labelOffsets t info.l1 := hd.trans (Finset.empty_union _)
    rw [Adds, hn, hp, hd1, Finset.empty_union]
  rw [if_neg h] at hn ⊢
  clear h
  by_cases h : info.op = Operators.fsize.code
  · rw [if_pos h] at hn ⊢
    refine .bind (yields_liftZ3 _) fun _ _ => .bind yields_setTreeSize fun _ _ => .pure ?_
    rw [Adds, hn, Finset.union_empty]
  rw [if_neg h] at hn ⊢
  clear h
  refine .read (getInfo_deps h1) fun _ _ => .read (getInfo_deps h2) fun _ _ =>
    .bind (yields_liftZ3 _) fun _ _ => (yields_firstOperand hop1).bind ?_
  rintro ⟨e1, deps⟩ hd
  refine .bind (yields_liftZ3 _) fun _ _ => (yields_secondOperand deps hop2').bind ?_
  rintro ⟨e2, deps2⟩ hd2
  refine .read (getInfo_deps h1) fun _ _ => .read (getInfo_deps h2) fun _ _ =>
    .bind yields_setTreeSize fun _ _ => yields_finish hfresh ?_ _
  have hd1 : deps = labelOffsets t info.l1 := hd.trans (Finset.empty_union _)
  rw [hn, ← hd1]
  exact hd2

end


theorem ComparesSettled.left (h : ComparesSettled t label) (hl : constOffset ≤ label) :
    ComparesSettled t (t.key label).l1 :=
  fun c hc => h c (.left hl hc)

theorem ComparesSettled.right (h : ComparesSettled t label) (hl : constOffset ≤ label)
    (hL : (t.key label).op ≠ Operators.Load.code) : ComparesSettled t (t.key label).l2 :=
  fun c hc => h c (.right hl hL hc)

theorem yields_serialize (ho : Ordered t) (hl : label ≤ t.lastLabel) (hf : label < fuel)
    (hset : ComparesSettled t label) (hdeps : deps = ∅ ∨ Settled t label) :
    Yields (DepsFrame t) (fun _ => True) (Adds t label deps) (serialize z mem fuel label deps) := by
  induction fuel generalizing label deps with
  | zero => omega
  | succ fuel ih =>
    unfold serialize
    refine .ite (fun _ => .throw trivial) fun hc => ?_
    have hlo : constOffset ≤ label := by omega
    have h1 := ho.l1 label hlo hl
    have h2 := ho.l2 label hlo hl
    apply Yields.read (getInfo_deps hl)
    rintro info ⟨hk, hfresh, hcached⟩
    cases he : info.expr with
    | some e =>
      apply Yields.pure
      rw [Adds, hcached e he, Option.getD_some]
    | none =>
      have hn := labelOffsets_eq ho hlo hl
      have hcmp := hset label .refl
      have hleft := hset.left hlo
      have hright := hset.right hlo
      have hraw : deps = ∅ ∨ (t.key label).op = 0 :=
        hdeps.imp_right fun hs => hs.resolve_right fun hne => hne (hfresh he)
      rw [← hk] at hn h1 h2 hcmp hleft hright hraw
      apply yields_serializeNode (hfresh he) hn
      · omega
      · intro hL
        have := h2 hL
        omega
      · exact ih (by omega) (by omega) hleft (.inl rfl)
      · intro hL deps hd
        have := h2 hL
        exact ih (by omega) (by omega) (hright hL) hd
      · exact hcmp
      · exact hraw

end

/-- Serialization starts with no dependencies when it is called from outside. -/
def TableOp.TopLevel : TableOp → Prop
  | .serialize _ _ deps => deps = ∅
  | _ => True

/-- What is serialized compares no two labels unless the second one is settled. -/
def TableOp.Settled (s : TableHistory) : TableOp → Prop
  | .serialize _ label _ => ComparesSettled s.table label
  | _ => True

/-- A set holds exactly the offsets whose symbols occur in the unsimplified expression of a
label. -/
def ExactDeps (mem : Memory) (t : LabelTable) (label : Nat) (deps : Finset Nat) : Prop :=
  ∃ e, termOf .idle mem t label = .ok e ∧ Mentions e deps

def CachesExact (mem : Memory) (t : LabelTable) : Prop :=
  ∀ l e, (t.info l).expr = some e → ∃ deps, (t.info l).deps = some deps ∧ ExactDeps mem t l deps

structure DepsInv (mem : Memory) (s : TableHistory) : Prop where
  inv : s.Inv
  terms : CoherentUpTo SameSort .idle mem s.table s.table
  sets : DepsFrame s.table s.table

section
variable {mem mem' : Memory} {s s' : TableHistory}

theorem DepsInv.ordered (h : DepsInv mem s) : Ordered s.table := TableInv.ordered h.inv

theorem DepsInv.initial (mem : Memory) : DepsInv mem .initial where
  inv := TableHistory.initial_inv
  terms := by
    refine ⟨.refl _, ?_⟩
    intro l e he
    cases (initial_expr l).symm.trans he
  sets := by
    refine ⟨.refl _, ?_⟩
    intro l e he
    cases (initial_expr l).symm.trans he

theorem TableStep.cached (hs : s.Inv) (h : TableStep z s a s')
    (ha : ∀ mem label deps, a ≠ .serialize mem label deps)
    (he : (s'.table.info l).expr = some e) :
    (s.table.info l).expr = some e ∧ (s'.table.info l).deps = (s.table.info l).deps := by
  cases h with
  | create hc =>
    rcases TableInv.dfsanCreateLabel hs _ with ⟨_, hr⟩ | ⟨_, info, hinfo, hr⟩
    · rw [hr] at hc
      cases hc
    · rw [hr] at hc
      cases hc
      have hold := extended_cached hinfo.expr he
      exact ⟨hold ▸ he, congrArg LabelInfo.deps hold⟩
  | union _ hu =>
    rw [TableHistory.afterUnion_table] at he ⊢
    cases TableInv.taintUnion_ok hs hu with
    | const | init | found => exact ⟨he, rfl⟩
    | fresh _ _ _ _ hinfo =>
      have hold := extended_cached hinfo.expr he
      exact ⟨hold ▸ he, congrArg LabelInfo.deps hold⟩
  | serialize => exact (ha _ _ _ rfl).elim
  | flip hl =>
    obtain ⟨hexpr, hdeps, _⟩ := flip_info s.table _ l
    exact ⟨hexpr.symm.trans he, hdeps⟩

theorem DepsInv.exact (h : DepsInv mem s) : CachesExact mem s.table := by
  intro l e he
  obtain ⟨hl, e', ht, _⟩ := h.terms.cached l e he
  exact ⟨_, h.sets.deps l e he, e', ht, termOf_mentions h.ordered hl ht⟩

theorem DepsInv.of_extends {t : LabelTable} (h : DepsInv mem s) (hinv : s'.Inv)
    (hg : Extends s.table s'.table) (hc : CoherentUpTo SameSort .idle mem s.table t)
    (hd : ∀ l e, (s'.table.info l).expr = some e → (t.info l).expr = some e ∧
      (s'.table.info l).deps = some (labelOffsets s.table l)) : DepsInv mem s' where
  inv := hinv
  terms := hc.extends h.ordered hg fun l e he => (hd l e he).1
  sets := by
    refine ⟨.refl _, ?_⟩
    intro l e he
    obtain ⟨hexpr, hdeps⟩ := hd l e he
    rw [hdeps, hg.labelOffsets h.ordered (TableInv.ordered hinv) (hc.cached l e hexpr).1]

theorem DepsInv.simulates (h : DepsInv mem s) (hz : z.Lawful) (mem' : Memory)
    (hl : label ≤ s.table.lastLabel) :
    Simulates (CoherentUpTo SameSort .idle mem s.table) (fun p e => SameSort p.1 e)
      (serialize z mem' (label + 1) label ∅) (termOf .idle mem s.table label) :=
  simulates_serialize_upTo (.sameSort hz Z3.idle_lawful mem' mem) h.ordered hl
    (Nat.lt_succ_self label)

theorem DepsInv.yields (h : DepsInv mem s) (z : Z3) (mem' : Memory)
    (hl : label ≤ s.table.lastLabel) (hset : ComparesSettled s.table label) :
    Yields (DepsFrame s.table) (fun _ => True) (Adds s.table label ∅)
      (serialize z mem' (label + 1) label ∅) :=
  yields_serialize h.ordered hl (Nat.lt_succ_self label) hset (.inl rfl)

theorem DepsInv.step (h : DepsInv mem s) (hz : z.Lawful) (hstep : TableStep z s a s')
    (htop : a.TopLevel) (hset : a.Settled s) : DepsInv mem s' := by
  have hinv := (hstep.inv h.inv).1
  have hg := hstep.extends h.inv
  cases a with
  | serialize mem' label deps =>
    cases htop
    cases hstep with
    | serialize hl =>
      apply h.of_extends hinv hg ((h.simulates hz mem' hl).finalState h.terms)
      intro l e he
      exact ⟨he, ((h.yields z mem' hl hset).keeps.finalState h.sets).deps l e he⟩
  | create | union | flip =>
    apply h.of_extends hinv hg h.terms
    intro l e he
    obtain ⟨hexpr, hdeps⟩ := hstep.cached h.inv nofun he
    exact ⟨hexpr, hdeps.trans (h.sets.deps l e hexpr)⟩

theorem DepsInv.serialize (h : DepsInv mem s) (hz : z.Lawful) (hl : label ≤ s.table.lastLabel)
    (hset : ComparesSettled s.table label)
    (hr : serialize z mem' (label + 1) label ∅ s.table = .ok (e, deps) t) :
    ExactDeps mem s.table label deps := by
  obtain ⟨_, e', ht, _⟩ := (h.simulates hz mem' hl s.table h.terms).1 _ _ hr
  have hdeps : deps = ∅ ∪ labelOffsets s.table label :=
    ((h.yields z mem' hl hset s.table h.sets).1 _ _ hr).2
  rw [hdeps, Finset.empty_union]
  exact ⟨e', ht, termOf_mentions h.ordered hl ht⟩

end

/-- In every run of calls from outside, of which none comes to a comparison of two labels with a
second operand that is neither an input byte nor cached, the sets that are cached and returned hold
exactly the offsets of the unsimplified expressions. -/
theorem dependency_sets_exact {s : TableHistory} (hz : z.Lawful)
    (h : Steps (fun s a s' => TableStep z s a s' ∧ a.TopLevel ∧ a.Settled s) .initial as s)
    (mem : Memory) :
    CachesExact mem s.table ∧
      ∀ mem' label e deps t, label ≤ s.table.lastLabel → ComparesSettled s.table label →
        serialize z mem' (label + 1) label ∅ s.table = .ok (e, deps) t →
        ExactDeps mem s.table label deps := by
  have hinv : DepsInv mem s := by
    apply h.invariant ?_ (.initial mem)
    rintro s a s' hs ⟨hstep, htop, hset⟩
    exact hs.step hz hstep htop hset
  refine ⟨hinv.exact, ?_⟩
  intro mem' label e deps t hl hset hr
  exact hinv.serialize hz hl hset hr

theorem Reaches.le (h : Reaches t l c) (ho : Ordered t) (hl : l ≤ t.lastLabel) : c ≤ l := by
  induction h with
  | refl => exact Nat.le_refl _
  | left hpos _ ih =>
    have h1 := ho.l1 _ hpos hl
    exact Nat.le_trans (ih (by omega)) (Nat.le_of_lt h1)
  | right hpos hL _ ih =>
    have h2 := ho.l2 _ hpos hl hL
    exact Nat.le_trans (ih (by omega)) (Nat.le_of_lt h2)

/-- Two loads of two input bytes each, and their comparison. -/
def comparedLoads : List TableOp :=
  [.create 0, .create 1, .create 2, .create 3,
    .union { l1 := 1, l2 := 2, op := Operators.Load.code, size := 16 },
    .union { l1 := 3, l2 := 2, op := Operators.Load.code, size := 16 },
    .union { l1 := 5, l2 := 6, op := Operators.fmemcmp.code, size := 2 }]

/-- The table after a call for a label. -/
def serialized (label : Nat) (t : LabelTable) : LabelTable :=
  finalState (serialize .idle (fun _ => 0) (label + 1) label ∅ t)

theorem comparedLoads_run :
    ∃ s, Steps (fun s a s' => TableStep .idle s a s' ∧ a.TopLevel ∧ a.Settled s) .initial
        comparedLoads s ∧
      s.table.lastLabel = 7 ∧ (s.table.key 3).op1 = 2 ∧
      s.table.key 6 = { l1 := 3, l2 := 2, op := Operators.Load.code, size := 16 } ∧
      (s.table.key 7).l2 = 6 ∧ (∀ c ≤ 6, (s.table.key c).op ≠ Operators.fmemcmp.code) ∧
      ((serialized 6 s.table).info 6).expr ≠ none ∧
      ((serialized 7 s.table).info 6).expr =
        some (.concat (.const (.int 3) 8) (.const (.int 2) 8)) ∧
      ((serialized 7 s.table).info 6).deps = some {0, 1, 2, 3} := by
  have h : Steps (fun s a s' => TableStep .idle s a s' ∧ a.TopLevel ∧ a.Settled s) .initial
      comparedLoads _ :=
    .cons ⟨.create rfl, trivial, trivial⟩ (.cons ⟨.create rfl, trivial, trivial⟩
      (.cons ⟨.create rfl, trivial, trivial⟩ (.cons ⟨.create rfl, trivial, trivial⟩
      (.cons ⟨.union ⟨by decide, fun _ => by decide⟩ rfl, trivial, trivial⟩
      (.cons ⟨.union ⟨by decide, fun _ => by decide⟩ rfl, trivial, trivial⟩
      (.cons ⟨.union ⟨by decide, fun _ => by decide⟩ rfl, trivial, trivial⟩ .nil))))))
  exact ⟨_, h, by decide +kernel, by decide +kernel, by decide +kernel, by decide +kernel,
    by decide +kernel, by decide +kernel, by decide +kernel, by decide +kernel⟩

/-- The set of the second load also has the offsets of the first one, with which it was
compared. -/
theorem dependency_sets_of_comparison :
    ∃ s e deps t, Steps (fun s a s' => TableStep .idle s a s' ∧ a.TopLevel) .initial
        (comparedLoads ++ [.serialize (fun _ => 0) 7 ∅]) s ∧
      (s.table.info 6).expr = some e ∧ (s.table.info 6).deps = some deps ∧
      serialize .idle (fun _ => 0) 7 6 ∅ s.table = .ok (e, deps) t ∧
      ¬ExactDeps (fun _ => 0) s.table 6 deps := by
  obtain ⟨s, h, hlast, hfirst, hkey, _, _, _, hexpr, hdeps⟩ := comparedLoads_run
  have h₁ : Steps (TableStep .idle) .initial comparedLoads s := h.mono fun _ _ _ hr => hr.1
  have hinv := (h₁.table_inv TableHistory.initial_inv).1
  have hlast7 : 7 ≤ s.table.lastLabel := Nat.le_of_eq hlast.symm
  have hstep : TableStep .idle s (.serialize (fun _ => 0) 7 ∅) ⟨serialized 7 s.table, s.stored⟩ :=
    .serialize hlast7
  have hsame : SameKeys s.table (serialized 7 s.table) := serialize_sameKeys hinv hlast7
  have ho : Ordered (serialized 7 s.table) := TableInv.ordered (hstep.inv hinv).1
  have hl : 6 ≤ (serialized 7 s.table).lastLabel := by
    rw [hsame.lastLabel, hlast]
    decide
  have hr : serialize .idle (fun _ => 0) 7 6 ∅ (serialized 7 s.table) = _ :=
    serialize_cached ho (by decide) hl hexpr
  rw [hdeps] at hr
  refine ⟨_, _, _, _, (h.mono fun _ _ _ hr => ⟨hr.1, hr.2.1⟩).append (.single ⟨hstep, rfl⟩), hexpr,
    hdeps, hr, ?_⟩
  rintro ⟨e, he, hm⟩
  rw [termOf_eq ho (by decide) hl, hsame.key, hkey, nodeTerm_load rfl, hfirst] at he
  have hload := loadTerm_mentions (ofZ3_eq_ok.1 he)
  have hmem : 0 ∈ loadDeps 2 1 := (hload 0).2 ((hm 0).1 (by decide))
  exact absurd hmem (by decide)

/-- The second load is serialized before the comparison. -/
theorem dependency_sets_exact_in_order :
    ∃ s, Steps (fun s a s' => TableStep .idle s a s' ∧ a.TopLevel ∧ a.Settled s) .initial
        (comparedLoads ++ [.serialize (fun _ => 0) 6 ∅, .serialize (fun _ => 0) 7 ∅]) s ∧
      CachesExact (fun _ => 0) s.table := by
  obtain ⟨s, h, hlast, _, _, hl2, hno, hcached, _⟩ := comparedLoads_run
  have h₁ : Steps (TableStep .idle) .initial comparedLoads s := h.mono fun _ _ _ hr => hr.1
  have hinv := (h₁.table_inv TableHistory.initial_inv).1
  have ho := TableInv.ordered hinv
  have hl6 : 6 ≤ s.table.lastLabel := by
    rw [hlast]
    decide
  have hset6 : ComparesSettled s.table 6 := by
    intro c hc hop
    exact (hno c (hc.le ho hl6) hop).elim
  have hstep6 : TableStep .idle s (.serialize (fun _ => 0) 6 ∅) ⟨serialized 6 s.table, s.stored⟩ :=
    .serialize hl6
  have hsame : SameKeys s.table (serialized 6 s.table) := serialize_sameKeys hinv hl6
  have hl7 : 7 ≤ (serialized 6 s.table).lastLabel :=
    Nat.le_of_eq (hsame.lastLabel.trans hlast).symm
  have hset7 : ComparesSettled (serialized 6 s.table) 7 := by
    intro c hc hop _
    have hle := hc.le (TableInv.ordered (hstep6.inv hinv).1) hl7
    rw [hsame.key] at hop ⊢
    rcases Nat.lt_or_eq_of_le hle with hlt | rfl
    · exact (hno c (Nat.le_of_lt_succ hlt) hop).elim
    · rw [hl2]
      exact .inr hcached
  have hstep7 : TableStep .idle ⟨serialized 6 s.table, s.stored⟩ (.serialize (fun _ => 0) 7 ∅) _ :=
    .serialize hl7
  have hrun := h.append (.cons ⟨hstep6, rfl, hset6⟩ (.single ⟨hstep7, rfl, hset7⟩))
  exact ⟨_, hrun, (dependency_sets_exact Z3.idle_lawful hrun _).1⟩

end Kirenenko
