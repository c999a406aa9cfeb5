import Kirenenko.Runtime.SerializeCache
import Kirenenko.Runtime.TermCongruence

namespace Kirenenko
set_option autoImplicit true

/-- Every cached expression is related to the term of its label, which is an allocated one. -/
structure CoherentUpTo (T : Term → Term → Prop) (z : Z3) (mem : Memory) (t t' : LabelTable) :
    Prop where
  same : SameKeys t t'
  cached : ∀ l e, (t'.info l).expr = some e →
    l ≤ t.lastLabel ∧ ∃ e', termOf z mem t l = .ok e' ∧ T e e'

theorem coherentUpTo_eq :
    CoherentUpTo (fun e e' => e = e') z mem t t' ↔ Coherent z mem t t' := by
  constructor
  · intro h
    refine ⟨h.same, ?_⟩
    intro l e he
    obtain ⟨hl, _, ht, rfl⟩ := h.cached l e he
    exact ⟨hl, ht⟩
  · intro h
    refine ⟨h.same, ?_⟩
    intro l e he
    obtain ⟨hl, ht⟩ := h.cached l e he
    exact ⟨hl, e, ht, rfl⟩

theorem CoherentUpTo.modifyInfo (h : CoherentUpTo T z mem t t') (label : Nat)
    {f : LabelInfo → LabelInfo} (hk : ∀ info, (f info).toLabelKey = info.toLabelKey)
    (he : ∀ info e, (f info).expr = some e → info.expr = some e ∨
      label ≤ t.lastLabel ∧ ∃ e', termOf z mem t label = .ok e' ∧ T e e') :
    CoherentUpTo T z mem t (t'.modifyInfo label f) where
  same := h.same.trans (.modifyInfo t' label hk)
  cached := by
    intro l e hl
    rcases modifyInfo_cases t' label f l with ⟨rfl, hinfo⟩ | hinfo
    · rw [hinfo] at hl
      rcases he _ _ hl with hc | hc
      · exact h.cached l e hc
      · exact hc
    · rw [hinfo] at hl
      exact h.cached l e hl

theorem CoherentUpTo.extends (h : CoherentUpTo T z mem t s) (ho : Ordered t) (hg : Extends t t')
    (hexpr : ∀ l e, (t'.info l).expr = some e → (s.info l).expr = some e) :
    CoherentUpTo T z mem t' t' where
  same := .refl _
  cached l e he := by
    obtain ⟨hl, e', ht, hT⟩ := h.cached l e (hexpr l e he)
    exact ⟨Nat.le_trans hl hg.lastLabel, e', (hg.termOf ho hl).trans ht, hT⟩

theorem simulates_liftZ3 {I : σ → Prop} {R : α → β → Prop} {x : Except Z3Exception α}
    {y : Except Z3Exception β} (h : Related R x y) :
    Simulates I R (liftZ3 x : EStateM Exn σ α) (ofZ3 y) := by
  cases x with
  | ok a =>
    cases y with
    | ok b => exact .pure h
    | error e => exact h.elim
  | error e =>
    cases y with
    | ok b => exact h.elim
    | error e' =>
      cases h
      exact .throw _

theorem simulates_uncached {I : σ → Prop} {x y : Except Z3Exception Term} (h : Related T x y)
    (deps : Finset Nat) :
    Simulates I (fun (p : Term × Finset Nat) e => T p.1 e) ((·, deps) <$> liftZ3 x) (ofZ3 y) := by
  rw [← id_map (ofZ3 y)]
  exact (simulates_liftZ3 h).map fun _ _ he => he

/-- Once it has been serialized, a label is cached if its terms are. -/
def Filled (t s : LabelTable) (l : Nat) : Prop :=
  isUncachedOp (t.key l).op = false → (s.info l).expr ≠ none

/-- What holds of a label whose expression is being cached: its first operand is filled. -/
def OperandFilled (t s : LabelTable) (l : Nat) : Prop :=
  isSpecialOp (t.key l).op = false → constOffset ≤ (t.key l).l1 → Filled t s (t.key l).l1

/-- An invariant of serialization that ties the caches to what `term` says of a label: a cached
expression is related to it, and what is not cached is built from the terms of the operands. -/
structure CacheInvariant (z : Z3) (mem : Memory) (T : Term → Term → Prop) (t : LabelTable)
    (term : Nat → Except Exn Term) (I : LabelTable → Prop) : Prop where
  same : ∀ s, I s → SameKeys t s
  invalid : ∀ l, l < constOffset ∨ l = kInitializingLabel →
    term l = .error (.z3 (.msg "invalid label"))
  cached : ∀ s l e, I s → constOffset ≤ l → l ≤ t.lastLabel → (s.info l).expr = some e →
    ∃ e', term l = .ok e' ∧ T e e'
  node : ∀ s l, I s → constOffset ≤ l → l ≤ t.lastLabel → (s.info l).expr = none →
    term l = nodeTerm z mem t.key (t.key l) term
  treeSize : ∀ s l n, I s → I (s.modifyInfo l fun info => { info with treeSize := n })
  cache : ∀ s l e e' deps, I s → constOffset ≤ l → l ≤ t.lastLabel → term l = .ok e' → T e e' →
    OperandFilled t s l →
    I (s.modifyInfo l fun info => { info with expr := some e, deps := some deps })

section
variable {z z' : Z3} {mem mem' : Memory} {t : LabelTable} {T : Term → Term → Prop}
  {term : Nat → Except Exn Term} {I : LabelTable → Prop}

theorem CacheInvariant.key_read (hI : CacheInvariant z mem T t term I) (hl : label ≤ t.lastLabel)
    (s : LabelTable) (hs : I s) :
    ∃ info, getInfo label s = .ok info s ∧ info.toLabelKey = t.key label := by
  have hsame := hI.same s hs
  have hl' : label ≤ s.lastLabel := by rw [hsame.lastLabel]; exact hl
  exact ⟨s.info label, (getInfo_eq label s).trans (if_pos hl'), congrFun hsame.key label⟩

theorem CacheInvariant.read (hI : CacheInvariant z mem T t term I) (hlo : constOffset ≤ label)
    (hl : label ≤ t.lastLabel) (s : LabelTable) (hs : I s) :
    ∃ info, getInfo label s = .ok info s ∧ info.toLabelKey = t.key label ∧
      (∀ e, info.expr = some e → ∃ e', term label = .ok e' ∧ T e e') ∧
      (info.expr = none → term label = nodeTerm z mem t.key (t.key label) term) := by
  have hsame := hI.same s hs
  have hl' : label ≤ s.lastLabel := by rw [hsame.lastLabel]; exact hl
  exact ⟨s.info label, (getInfo_eq label s).trans (if_pos hl'), congrFun hsame.key label,
    fun e => hI.cached s label e hs hlo hl, hI.node s label hs hlo hl⟩

theorem simulates_setTreeSize {x : SerializeM α} {r : Except Exn β}
    (hI : CacheInvariant z mem T t term I) (hx : Simulates I R x r) :
    Simulates I R (setTreeSize label n >>= fun _ => x) r :=
  .update (fun s hs => hI.treeSize s label _ hs) hx

theorem simulates_cacheExpr (hI : CacheInvariant z mem T t term I) (hlo : constOffset ≤ label)
    (hl : label ≤ t.lastLabel) (hop : ∀ s, I s → OperandFilled t s label)
    (h : term label = .ok e') (he : T e e') :
    Simulates I (fun p e => T p.1 e) (cacheExpr label e deps) (.ok e') :=
  .update (fun s hs => hI.cache s label e e' deps hs hlo hl h he (hop s hs)) (.pure he)

theorem simulates_finish {x y : Except Z3Exception Term} (hI : CacheInvariant z mem T t term I)
    (hlo : constOffset ≤ label) (hl : label ≤ t.lastLabel)
    (hop : ∀ s, I s → OperandFilled t s label) (h : term label = ofZ3 y) (hr : Related T x y) :
    Simulates I (fun p e => T p.1 e) (liftZ3 x >>= fun e => cacheExpr label e deps) (ofZ3 y) := by
  rw [← bind_pure (ofZ3 y)]
  refine (simulates_liftZ3 hr).bind ?_
  intro e e' he hT
  exact simulates_cacheExpr hI hlo hl hop (h.trans he) hT

theorem simulates_copyTreeSize {x : SerializeM α} {r : Except Exn β}
    (hI : CacheInvariant z mem T t term I) (hc : c ≤ t.lastLabel) (hx : Simulates I R x r) :
    Simulates I R (getInfo c >>= fun i => setTreeSize label i.treeSize >>= fun _ => x) r :=
  .read (hI.key_read hc) fun _ _ => simulates_setTreeSize hI hx

theorem simulates_unary {F : Term → Except Z3Exception Term}
    {operand : SerializeM (Term × Finset Nat)} (hI : CacheInvariant z mem T t term I)
    (hlo : constOffset ≤ label) (hl : label ≤ t.lastLabel)
    (hfill : ∀ s, I s → OperandFilled t s label)
    (hn : term label = term c >>= fun e => ofZ3 (F e))
    (hF : ∀ e e', T e e' → Related T (F e) (F e')) (hc : c ≤ t.lastLabel)
    (hop : Simulates I (fun p e => T p.1 e) operand (term c)) :
    Simulates I (fun p e => T p.1 e)
      (operand >>= fun p => getInfo c >>= fun i => setTreeSize label i.treeSize >>= fun _ =>
        liftZ3 (F p.1) >>= fun e => cacheExpr label e p.2) (term label) := by
  rw [hn]
  refine hop.bind ?_
  rintro ⟨e, deps⟩ e' he hT
  refine simulates_copyTreeSize hI hc (simulates_finish hI hlo hl hfill ?_ (hF e e' hT))
  rw [hn, he]
  rfl

theorem Filled.modifyInfo {f : LabelInfo → LabelInfo} (h : Filled t s l)
    (hf : ∀ info, (f info).expr = none → info.expr = none) :
    Filled t (s.modifyInfo label f) l := by
  intro hop hnone
  apply h hop
  rcases modifyInfo_cases s label f l with ⟨rfl, hinfo⟩ | hinfo
  · rw [hinfo] at hnone
    exact hf _ hnone
  · rw [hinfo] at hnone
    exact hnone

theorem CacheInvariant.filled (hI : CacheInvariant z mem T t term I) (l : Nat) :
    CacheInvariant z mem T t term fun s => I s ∧ OperandFilled t s l where
  same s hs := hI.same s hs.1
  invalid := hI.invalid
  cached s l e hs := hI.cached s l e hs.1
  node s l hs := hI.node s l hs.1
  treeSize s l n hs :=
    ⟨hI.treeSize s l n hs.1, fun hop hlo => (hs.2 hop hlo).modifyInfo fun _ h => h⟩
  cache s l e e' deps hs hlo hl h he hop :=
    ⟨hI.cache s l e e' deps hs.1 hlo hl h he hop,
      fun hop hlo => (hs.2 hop hlo).modifyInfo fun _ h => nomatch h⟩

theorem simulates_leaf {x y : Except Z3Exception Term} (hI : CacheInvariant z mem T t term I)
    (h : Related T x y) (deps : Finset Nat) :
    Simulates I (fun p e => T p.1 e)
      (liftZ3 x >>= fun e => setTreeSize label n >>= fun _ => pure (e, deps)) (ofZ3 y) := by
  rw [← bind_pure (ofZ3 y)]
  refine (simulates_liftZ3 h).bind ?_
  intro e e' _ he
  exact simulates_setTreeSize hI (.pure he)

theorem simulates_extend {f : Nat → Term → Term} (hT : TermCongruence z z' mem mem' T)
    (hf : ∀ k, SortDetermined fun a _ => f k a) (hI : CacheInvariant z' mem' T t term I)
    (hlo : constOffset ≤ label) (hl : label ≤ t.lastLabel)
    (hfill : ∀ s, I s → OperandFilled t s label)
    (hn : term label = ofZ3 (bvSize b) >>= fun w => ofZ3 (extendTerm f size w b))
    (hc : c ≤ t.lastLabel) (hbase : T base b) :
    Simulates I (fun p e => T p.1 e)
      (liftZ3 (bvSize base) >>= fun w => getInfo c >>= fun i => setTreeSize label i.treeSize >>=
        fun _ => liftZ3 (extendTerm f size w base) >>= fun e => cacheExpr label e deps)
      (ofZ3 (bvSize b) >>= fun w => ofZ3 (extendTerm f size w b)) := by
  rw [hT.bvSize hbase]
  refine (simulates_liftZ3 (Related.refl (bvSize b))).bind ?_
  rintro w _ hw rfl
  refine simulates_copyTreeSize hI hc
    (simulates_finish hI hlo hl hfill ?_ (hT.extendTerm hf _ _ hbase))
  rw [hn, hw]
  rfl

section
variable {operand : Nat → Finset Nat → SerializeM (Term × Finset Nat)} {k : LabelKey}

theorem simulates_memcmpOperand (hT : TermCongruence z z' mem mem' T)
    (hop : ∀ deps, Simulates I (fun p e => T p.1 e) (operand k.l1 deps) (term k.l1)) :
    Simulates I (fun p e => T p.1 e) (memcmpOperand mem operand k deps)
      (memcmpTermOf mem' k term) := by
  unfold memcmpOperand memcmpTermOf
  by_cases hg : k.l1 ≥ constOffset
  · simp only [if_pos hg]
    exact hop deps
  · simp only [if_neg hg]
    exact simulates_uncached (hT.readConcrete _ _) deps

theorem simulates_firstOperand (hT : TermCongruence z z' mem mem' T)
    (hval : checked v = .ok val)
    (hop : ∀ deps, Simulates I (fun p e => T p.1 e) (operand k.l1 deps) (term k.l1)) :
    Simulates I (fun p e => T p.1 e) (firstOperand z operand k val deps)
      (operandTermOf z' k k.l1 val k.op1 term) := by
  unfold firstOperand operandTermOf
  by_cases hg : k.l1 ≥ constOffset
  · simp only [if_pos hg]
    exact (hop deps).map fun _ _ he => hT.simplify _ _ he
  · simp only [if_neg hg]
    exact .pure (hT.concreteOperand hval)

theorem simulates_secondOperand (hT : TermCongruence z z' mem mem' T)
    (hval : checked v = .ok val)
    (hop : ∀ deps, Simulates I (fun p e => T p.1 e) (operand k.l2 deps) (term k.l2)) :
    Simulates I (fun p e => T p.1 e) (secondOperand z operand k val deps)
      (operandTermOf z' k k.l2 val k.op2 term) := by
  unfold secondOperand operandTermOf
  by_cases hg : k.l2 ≥ constOffset
  · simp only [if_pos hg]
    exact (hop ∅).map fun _ _ he => hT.simplify _ _ he
  · simp only [if_neg hg]
    exact .pure (hT.concreteOperand hval)

theorem firstOperand_filled (hk : k = t.key label)
    (hfill : ∀ deps s p s', I s → operand k.l1 deps s = .ok p s' → Filled t s' k.l1) (hs : I s)
    (hr : firstOperand z operand k val deps s = .ok p s') : OperandFilled t s' label := by
  intro _ hge
  rw [← hk] at hge ⊢
  rw [firstOperand, if_pos hge, estate_map_eq] at hr
  obtain ⟨q, s₁, hq, hr⟩ := estate_bind_eq_ok.1 hr
  cases hr
  exact hfill _ s q s' hs hq

/-- An operator with two operands: the first one is filled by the time the term is cached. -/
theorem simulates_common (hT : TermCongruence z z' mem mem' T)
    (hI : CacheInvariant z' mem' T t term I) (hlo : constOffset ≤ label) (hl : label ≤ t.lastLabel)
    (hk : k = t.key label)
    (hn : term label = do
      let val1 ← ofZ3 (checked (.bvVal k.op1 (leftWidth k (t.key k.l2).size)))
      let op1 ← operandTermOf z' k k.l1 val1 k.op1 term
      let val2 ← ofZ3 (checked (.bvVal k.op2 (rightWidth k (t.key k.l1).size (t.key k.l2).size)))
      let op2 ← operandTermOf z' k k.l2 val2 k.op2 term
      ofZ3 (commonTerm k.op k.size op1 op2))
    (h1 : k.l1 ≤ t.lastLabel) (h2 : k.l2 ≤ t.lastLabel)
    (hop1 : ∀ deps, Simulates I (fun p e => T p.1 e) (operand k.l1 deps) (term k.l1))
    (hfill : ∀ deps s p s', I s → operand k.l1 deps s = .ok p s' → Filled t s' k.l1)
    (hop2 : ∀ I', CacheInvariant z' mem' T t term I' → ∀ deps,
      Simulates I' (fun p e => T p.1 e) (operand k.l2 deps) (term k.l2)) :
    Simulates I (fun p e => T p.1 e) (do
      let info1 ← getInfo k.l1
      let info2 ← getInfo k.l2
      let val1 ← liftZ3 (checked (.bvVal k.op1 (leftWidth k info2.size)))
      let (op1, deps) ← firstOperand z operand k val1 deps
      let val2 ← liftZ3 (checked (.bvVal k.op2 (rightWidth k info1.size info2.size)))
      let (op2, deps) ← secondOperand z operand k val2 deps
      setTreeSize label ((← getInfo k.l1).treeSize + (← getInfo k.l2).treeSize)
      let e ← liftZ3 (commonTerm k.op k.size op1 op2)
      cacheExpr label e deps) (term label) := by
  refine .read (hI.key_read h1) ?_
  intro info1 hk1
  refine .read (hI.key_read h2) ?_
  intro info2 hk2
  rw [← hk1, ← hk2] at hn
  rw [hn]
  refine (simulates_liftZ3 (Related.refl (checked _))).bind ?_
  rintro val1 _ hv1 rfl
  refine (simulates_firstOperand hT (ofZ3_eq_ok.1 hv1) hop1).bind_learn
    (K := fun s => OperandFilled t s label) ?_ ?_
  · intro s p s' hs hr
    exact firstOperand_filled hk hfill hs hr
  rintro ⟨op1, deps⟩ e1 ho1 he1
  replace hI := hI.filled label
  refine (simulates_liftZ3 (Related.refl (checked _))).bind ?_
  rintro val2 _ hv2 rfl
  refine (simulates_secondOperand hT (ofZ3_eq_ok.1 hv2) (hop2 _ hI)).bind ?_
  rintro ⟨op2, deps⟩ e2 ho2 he2
  refine .read (hI.key_read h1) fun _ _ => .read (hI.key_read h2) fun _ _ =>
    simulates_setTreeSize hI (simulates_finish hI hlo hl (fun _ hs => hs.2) ?_
      (hT.commonTerm _ _ he1 he2))
  rw [hn, hv1]
  simp only [Bind.bind, Except.bind] at ho1 ho2 ⊢
  rw [ho1]
  simp only [hv2]
  rw [ho2]

end

theorem simulates_serializeNode {operand : Nat → Finset Nat → SerializeM (Term × Finset Nat)}
    (hT : TermCongruence z z' mem mem' T) (hI : CacheInvariant z' mem' T t term I)
    (hlo : constOffset ≤ label) (hl : label ≤ t.lastLabel)
    (hk : info.toLabelKey = t.key label)
    (hn : term label = nodeTerm z' mem' t.key info.toLabelKey term)
    (h1 : info.l1 ≤ t.lastLabel) (h2 : info.op ≠ Operators.Load.code → info.l2 ≤ t.lastLabel)
    (hop1 : ∀ deps, Simulates I (fun p e => T p.1 e) (operand info.l1 deps) (term info.l1))
    (hfill : ∀ deps s p s', I s → operand info.l1 deps s = .ok p s' → Filled t s' info.l1)
    (hop2 : info.op ≠ Operators.Load.code → ∀ I', CacheInvariant z' mem' T t term I' → ∀ deps,
      Simulates I' (fun p e => T p.1 e) (operand info.l2 deps) (term info.l2)) :
    Simulates I (fun p e => T p.1 e) (serializeNode z mem operand label info deps)
      (term label) := by
  have hspecial : ∀ o, info.op = o → isSpecialOp o = true → ∀ s, I s → OperandFilled t s label := by
    intro o h ho s _ hcommon
    rw [← hk, h, ho] at hcommon
    cases hcommon
  unfold serializeNode
  unfold nodeTerm at hn
  by_cases h : info.op = 0
  · simp only [if_pos h] at hn ⊢
    rw [hn]
    exact simulates_leaf hI (hT.sorted (.byteTerm _)) _
  simp only [if_neg h] at hn ⊢
  clear h
  by_cases h : info.op = Operators.Load.code
  · simp only [if_pos h] at hn ⊢
    refine .read (hI.key_read h1) ?_
    intro base hb
    rw [← hb] at hn
    rw [hn, ← bind_pure (ofZ3 _)]
    refine (simulates_liftZ3 (hT.sorted (.loadTerm _ _))).bind ?_
    intro e e' he hee
    exact simulates_setTreeSize hI
      (simulates_cacheExpr hI hlo hl (hspecial _ h rfl) (hn.trans he) hee)
  simp only [if_neg h] at hn ⊢
  replace h2 := h2 h
  replace hop2 := hop2 h
  clear h
  by_cases h : info.op = Operators.ZExt.code
  · simp only [if_pos h] at hn ⊢
    rw [hn]
    refine (hop1 deps).bind ?_
    rintro ⟨base, deps⟩ b hb hbase
    rw [hb] at hn
    refine (simulates_liftZ3 (hT.boolToBv hbase)).bind ?_
    intro base' b' hb' hbase'
    change term label = (ofZ3 (boolToBv b) >>= fun base => _) at hn
    rw [hb'] at hn
    exact simulates_extend hT sortDetermined_zext hI hlo hl (hspecial _ h rfl) hn h1 hbase'
  simp only [if_neg h] at hn ⊢
  clear h
  by_cases h : info.op = Operators.SExt.code
  · simp only [if_pos h] at hn ⊢
    rw [hn]
    refine (hop1 deps).bind ?_
    rintro ⟨base, deps⟩ b hb hbase
    rw [hb] at hn
    exact simulates_extend hT sortDetermined_sext hI hlo hl (hspecial _ h rfl) hn h1 hbase
  simp only [if_neg h] at hn ⊢
  clear h
  by_cases h : info.op = Operators.Trunc.code
  · simp only [if_pos h] at hn ⊢
    exact simulates_unary hI hlo hl (hspecial _ h rfl) hn (fun _ _ => hT.extractTerm _ _) h1
      (hop1 deps)
  simp only [if_neg h] at hn ⊢
  clear h
  by_cases h : info.op = Operators.Extract.code
  · simp only [if_pos h] at hn ⊢
    exact simulates_unary hI hlo hl (hspecial _ h rfl) hn (fun _ _ => hT.extractTerm _ _) h1
      (hop1 deps)
  simp only [if_neg h] at hn ⊢
  clear h
  by_cases h : info.op = Operators.Not.code
  · simp only [if_pos h] at hn ⊢
    by_cases hg : info.l2 = 0 ∨ info.size ≠ 1
    · simp only [if_pos hg] at hn ⊢
      rw [hn]
      exact .throw _
    · simp only [if_neg hg] at hn ⊢
      exact simulates_unary hI hlo hl (hspecial _ h rfl) hn (fun _ _ => hT.lnotTerm) h2
        (hop2 I hI deps)
  simp only [if_neg h] at hn ⊢
  clear h
  by_cases h : info.op = Operators.Neg.code
  · simp only [if_pos h] at hn ⊢
    by_cases hg : info.l2 = 0
    · simp only [if_pos hg] at hn ⊢
      rw [hn]
      exact .throw _
    · simp only [if_neg hg] at hn ⊢
      exact simulates_unary (F := fun e => checked (.neg e)) hI hlo hl (hspecial _ h rfl) hn
        (fun _ _ => hT.negTerm) h2 (hop2 I hI deps)
  simp only [if_neg h] at hn ⊢
  clear h
  by_cases h : info.op = Operators.fmemcmp.code
  · simp only [if_pos h] at hn ⊢
    rw [hn]
    refine (simulates_memcmpOperand hT hop1).bind ?_
    rintro ⟨op1, deps⟩ e1 _ he1
    by_cases hg : info.l2 < constOffset
    · simp only [if_pos hg]
      exact .throw _
    simp only [if_neg hg]
    refine (hop2 I hI deps).bind ?_
    rintro ⟨op2, deps⟩ e2 _ he2
    exact simulates_setTreeSize hI (simulates_uncached (hT.memcmpTerm he1 he2) deps)
  simp only [if_neg h] at hn ⊢
  clear h
  by_cases h : info.op = Operators.fsize.code
  · simp only [if_pos h] at hn ⊢
    rw [hn]
    exact simulates_leaf hI (hT.sorted (.fsizeTerm _ _)) _
  simp only [if_neg h] at hn ⊢
  clear h
  exact simulates_common hT hI hlo hl hk hn h1 h2 hop1 hfill hop2

/-- Serialization with any related simplifier and memory ends as the terms say. -/
theorem CacheInvariant.simulates (hI : CacheInvariant z' mem' T t term I)
    (hT : TermCongruence z z' mem mem' T) (ho : Ordered t) (hl : label ≤ t.lastLabel)
    (hf : label < fuel) :
    Simulates I (fun p e => T p.1 e) (serialize z mem fuel label deps) (term label) := by
  induction fuel generalizing label deps I with
  | zero => omega
  | succ fuel ih =>
    by_cases hc : label < constOffset ∨ label = kInitializingLabel
    · rw [hI.invalid label hc]
      simp only [serialize, if_pos hc]
      exact .throw _
    have hlo : constOffset ≤ label := by omega
    have h1 := ho.l1 label hlo hl
    have h2 := ho.l2 label hlo hl
    simp only [serialize, if_neg hc]
    refine .read (hI.read hlo hl) ?_
    rintro info ⟨hk, hcache, hn⟩
    cases he : info.expr with
    | some e =>
      obtain ⟨e', ht, hee⟩ := hcache e he
      rw [ht]
      exact .pure hee
    | none =>
      replace hn := hn he
      rw [← hk] at hn h1 h2
      apply simulates_serializeNode hT hI hlo hl hk hn
      · omega
      · intro hL
        have := h2 hL
        omega
      · intro deps
        exact ih hI (by omega) (by omega)
      · rintro deps s ⟨e, deps'⟩ s' hs hr hop
        rw [← (hI.same s hs).key] at hop
        rw [serialize_fills hr hop]
        intro h
        cases h
      · intro hL I' hI' deps
        have := h2 hL
        exact ih hI' (by omega) (by omega)

theorem coherentUpTo_invariant (T : Term → Term → Prop) (z : Z3) (mem : Memory) (ho : Ordered t) :
    CacheInvariant z mem T t (termOf z mem t) (CoherentUpTo T z mem t) where
  same _ hs := hs.same
  invalid l hl := by rw [termOf, if_pos hl]
  cached _ l e hs _ _ he := (hs.cached l e he).2
  node _ _ _ hlo hl _ := termOf_eq ho hlo hl
  treeSize _ l _ hs := hs.modifyInfo l (fun _ => rfl) fun _ _ he => .inl he
  cache s l e e' deps hs _ hl h he _ := by
    refine hs.modifyInfo l (fun _ => rfl) ?_
    intro info e₁ he₁
    cases he₁
    exact .inr ⟨hl, e', h, he⟩

theorem simulates_serialize_upTo (hT : TermCongruence z z' mem mem' T) (ho : Ordered t)
    (hl : label ≤ t.lastLabel) (hf : label < fuel) :
    Simulates (CoherentUpTo T z' mem' t) (fun p e => T p.1 e) (serialize z mem fuel label deps)
      (termOf z' mem' t label) :=
  (coherentUpTo_invariant T z' mem' ho).simulates hT ho hl hf

end

section
variable {z : Z3} {mem : Memory} {t : LabelTable}

theorem Coherent.modifyInfo (h : Coherent z mem t t') (label : Nat) {f : LabelInfo → LabelInfo}
    (hk : ∀ info, (f info).toLabelKey = info.toLabelKey)
    (he : ∀ info e, (f info).expr = some e → info.expr = some e) :
    Coherent z mem t (t'.modifyInfo label f) :=
  coherentUpTo_eq.1 ((coherentUpTo_eq.2 h).modifyInfo label hk fun info e hf =>
    .inl (he info e hf))

theorem simulates_serialize (ho : Ordered t) (hl : label ≤ t.lastLabel) (hf : label < fuel) :
    Simulates (Coherent z mem t) (fun p e => p.1 = e) (serialize z mem fuel label deps)
      (termOf z mem t label) := by
  have hI : Coherent z mem t = CoherentUpTo (fun e e' => e = e') z mem t := by
    funext s
    exact propext coherentUpTo_eq.symm
  rw [hI]
  exact simulates_serialize_upTo (.eq z mem) ho hl hf

end

end Kirenenko
