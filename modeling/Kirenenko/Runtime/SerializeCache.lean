import Kirenenko.Runtime.SerializeFrame

namespace Kirenenko
set_option autoImplicit true

/-- The operators whose terms `serialize` builds anew each time. -/
def isUncachedOp (op : Nat) : Bool :=
  op == 0 || op == Operators.fmemcmp.code || op == Operators.fsize.code

/-- A computation that leaves every Boolean it returns in the cache of a label. -/
def Caches (label : Nat) (x : SerializeM (Term × Finset Nat)) : Prop :=
  ∀ s e deps s', x s = .ok (e, deps) s' → e.sort = some .bool →
    (s'.info label).expr = some e ∧ (s'.info label).deps.getD ∅ = deps

/-- A computation that leaves every term with `P` that it returns in the cache of a label. -/
def CachesWhen (P : Term → Prop) (label : Nat) (x : SerializeM (Term × Finset Nat)) : Prop :=
  ∀ s e deps s', x s = .ok (e, deps) s' → P e →
    (s'.info label).expr = some e ∧ (s'.info label).deps.getD ∅ = deps

section
variable {P : Term → Prop} {label : Nat} {x y : SerializeM (Term × Finset Nat)}

theorem CachesWhen.bind {u : SerializeM α} {f : α → SerializeM (Term × Finset Nat)}
    (h : ∀ a, CachesWhen P label (f a)) : CachesWhen P label (u >>= f) := by
  intro s e deps s' hr he
  obtain ⟨a, s₁, _, hf⟩ := estate_bind_eq_ok.1 hr
  exact h a s₁ e deps s' hf he

theorem CachesWhen.ite {c : Prop} [Decidable c] (hx : c → CachesWhen P label x)
    (hy : ¬c → CachesWhen P label y) : CachesWhen P label (if c then x else y) := by
  by_cases hc : c
  · rw [if_pos hc]
    exact hx hc
  · rw [if_neg hc]
    exact hy hc

theorem CachesWhen.throw (e : Exn) :
    CachesWhen P label (MonadExcept.throw e : SerializeM (Term × Finset Nat)) := by
  intro s e' deps s' hr
  cases hr

theorem CachesWhen.cacheExpr (e : Term) (deps : Finset Nat) :
    CachesWhen P label (cacheExpr label e deps) := by
  intro s e' deps' s' hr _
  cases hr
  simp only [LabelTable.modifyInfo, Function.update_self, Option.getD_some, and_self]

/-- Terms that are returned without being cached do not have `P`. -/
theorem CachesWhen.of_not {t : Except Z3Exception Term} {f : Term → SerializeM (Term × Finset Nat)}
    (ht : ∀ e, t = .ok e → ¬P e) (hf : ∀ e s p s', f e s = .ok p s' → p.1 = e) :
    CachesWhen P label (liftZ3 t >>= f) := by
  intro s e deps s' hr he
  obtain ⟨e', s₁, hl, hfe⟩ := estate_bind_eq_ok.1 hr
  have h1 : e = e' := hf e' s₁ _ s' hfe
  subst h1
  cases t with
  | ok a =>
    cases hl
    exact (ht e rfl he).elim
  | error z => cases hl

theorem byteTerm_not_bool (h : byteTerm o = .ok e) : e.sort ≠ some .bool := by
  obtain ⟨s, _, h⟩ := except_bind_ok.1 h
  obtain ⟨rfl, _⟩ := checked_eq_ok.1 h
  intro hs
  cases (Term.sort_inversion hs).1

theorem memcmpTerm_not_bool (h : memcmpTerm a b = .ok e) : e.sort ≠ some .bool := by
  obtain ⟨rfl, _⟩ := checked_eq_ok.1 h
  intro hs
  cases (Term.sort_inversion (Term.sort_inversion hs).2.1).1

theorem fsizeTerm_not_bool (h : fsizeTerm a size = .ok e) : e.sort ≠ some .bool := by
  obtain ⟨base, hb, h⟩ := except_bind_ok.1 h
  obtain ⟨rfl, _⟩ := checked_eq_ok.1 hb
  intro hs
  by_cases ha : a ≠ 0
  · rw [if_pos ha] at h
    obtain ⟨rfl, _⟩ := checked_eq_ok.1 h
    obtain ⟨w, hw, _⟩ := Term.sort_inversion hs
    cases hw
  · rw [if_neg ha] at h
    cases h
    cases (Term.sort_inversion hs).1

theorem cachesWhen_serializeNode {operand : Nat → Finset Nat → SerializeM (Term × Finset Nat)}
    (hbyte : info.op = 0 → ∀ e, byteTerm info.op1 = .ok e → ¬P e)
    (hcmp : info.op = Operators.fmemcmp.code → ∀ a b e, memcmpTerm a b = .ok e → ¬P e)
    (hsize : info.op = Operators.fsize.code → ∀ e, fsizeTerm info.op1 info.size = .ok e → ¬P e) :
    CachesWhen P label (serializeNode z mem operand label info deps) := by
  unfold serializeNode
  have hpure : ∀ (n : Nat) (d : Finset Nat) (e : Term) s p s',
      (setTreeSize label n >>= fun _ => pure (e, d) : SerializeM (Term × Finset Nat)) s =
        .ok p s' → p.1 = e := by
    intro n d e s p s' h
    cases h
    rfl
  apply CachesWhen.ite
  · intro h
    exact .of_not (hbyte h) (hpure _ _)
  intro _
  apply CachesWhen.ite
  · exact fun _ => .bind fun _ => .bind fun _ => .bind fun _ => .cacheExpr _ _
  intro _
  apply CachesWhen.ite
  · exact fun _ => .bind fun _ => .bind fun _ => .bind fun _ => .bind fun _ => .bind fun _ =>
      .bind fun _ => .cacheExpr _ _
  intro _
  apply CachesWhen.ite
  · exact fun _ => .bind fun _ => .bind fun _ => .bind fun _ => .bind fun _ => .bind fun _ =>
      .cacheExpr _ _
  intro _
  apply CachesWhen.ite
  · exact fun _ => .bind fun _ => .bind fun _ => .bind fun _ => .bind fun _ => .cacheExpr _ _
  intro _
  apply CachesWhen.ite
  · exact fun _ => .bind fun _ => .bind fun _ => .bind fun _ => .bind fun _ => .cacheExpr _ _
  intro _
  apply CachesWhen.ite
  · intro _
    exact .ite (fun _ => .throw _) fun _ => .bind fun _ => .bind fun _ => .bind fun _ =>
      .bind fun _ => .cacheExpr _ _
  intro _
  apply CachesWhen.ite
  · intro _
    exact .ite (fun _ => .throw _) fun _ => .bind fun _ => .bind fun _ => .bind fun _ =>
      .bind fun _ => .cacheExpr _ _
  intro _
  apply CachesWhen.ite
  · intro hm
    apply CachesWhen.bind
    intro p
    apply CachesWhen.ite
    · exact fun _ => .throw _
    · intro _
      apply CachesWhen.bind
      intro q
      apply CachesWhen.bind
      intro _
      apply CachesWhen.of_not (hcmp hm _ _)
      intro e s r s' h
      cases h
      rfl
  intro _
  apply CachesWhen.ite
  · intro h
    exact .of_not (hsize h) (hpure _ _)
  · exact fun _ => .bind fun _ => .bind fun _ => .bind fun _ => .bind fun _ => .bind fun _ =>
      .bind fun _ => .bind fun _ => .bind fun _ => .bind fun _ => .bind fun _ => .cacheExpr _ _

theorem caches_serializeNode {operand : Nat → Finset Nat → SerializeM (Term × Finset Nat)} :
    Caches label (serializeNode z mem operand label info deps) :=
  cachesWhen_serializeNode (fun _ _ => byteTerm_not_bool) (fun _ _ _ _ => memcmpTerm_not_bool)
    fun _ _ => fsizeTerm_not_bool

theorem getInfo_ok {t : LabelTable} (h : getInfo label t = .ok info t') :
    label ≤ t.lastLabel ∧ info = t.info label ∧ t' = t := by
  rw [getInfo_eq] at h
  by_cases hl : label ≤ t.lastLabel
  · rw [if_pos hl] at h
    cases h
    exact ⟨hl, rfl, rfl⟩
  · rw [if_neg hl] at h
    cases h

theorem serialize_ok_cases {t : LabelTable}
    (h : serialize z mem (fuel + 1) label deps₀ t = .ok (e, deps) t') :
    constOffset ≤ label ∧ label ≤ t.lastLabel ∧
    ((t.info label).expr = some e ∧ deps = deps₀ ∪ (t.info label).deps.getD ∅ ∧ t' = t ∨
      (t.info label).expr = none ∧
      serializeNode z mem (serialize z mem fuel) label (t.info label) deps₀ t =
        .ok (e, deps) t') := by
  rw [serialize] at h
  by_cases hc : label < constOffset ∨ label = kInitializingLabel
  · rw [if_pos hc] at h
    cases h
  rw [if_neg hc] at h
  obtain ⟨info, t₁, hinfo, h⟩ := estate_bind_eq_ok.1 h
  obtain ⟨hl, rfl, rfl⟩ := getInfo_ok hinfo
  refine ⟨by omega, hl, ?_⟩
  cases hcache : (t₁.info label).expr with
  | some e' =>
    rw [hcache] at h
    cases h
    exact .inl ⟨rfl, rfl, rfl⟩
  | none =>
    rw [hcache] at h
    exact .inr ⟨rfl, h⟩

/-- A label whose expression is a Boolean is cached once it has been serialized. -/
theorem serialize_caches {t : LabelTable} (h : serialize z mem fuel label ∅ t = .ok (e, deps) t')
    (he : e.sort = some .bool) :
    (t'.info label).expr = some e ∧ (t'.info label).deps.getD ∅ = deps := by
  cases fuel with
  | zero => cases h
  | succ fuel =>
    obtain ⟨_, _, ⟨hcache, rfl, rfl⟩ | ⟨_, hnode⟩⟩ := serialize_ok_cases h
    · exact ⟨hcache, (Finset.empty_union _).symm⟩
    · exact caches_serializeNode t e deps t' hnode he

theorem serialize_fills {t : LabelTable}
    (h : serialize z mem fuel label deps₀ t = .ok (e, deps) t')
    (hop : isUncachedOp (t.key label).op = false) : (t'.info label).expr = some e := by
  simp only [isUncachedOp, Bool.or_eq_false_iff, beq_eq_false_iff_ne] at hop
  obtain ⟨⟨h0, hm⟩, hs⟩ := hop
  cases fuel with
  | zero => cases h
  | succ fuel =>
    obtain ⟨_, _, ⟨hcache, _, rfl⟩ | ⟨_, hnode⟩⟩ := serialize_ok_cases h
    · exact hcache
    · have hcaches : CachesWhen (fun _ => True) label
          (serializeNode z mem (serialize z mem fuel) label (t.info label) deps₀) :=
        cachesWhen_serializeNode (fun h => (h0 h).elim) (fun h => (hm h).elim) fun h => (hs h).elim
      exact (hcaches t e deps t' hnode trivial).1

theorem serialize_cached {t : LabelTable} (ho : Ordered t) (hl : constOffset ≤ label)
    (hlast : label ≤ t.lastLabel) (he : (t.info label).expr = some e) :
    serialize z mem (label + 1) label ∅ t = .ok (e, (t.info label).deps.getD ∅) t := by
  have hb := ho.bound
  have hc : ¬(label < constOffset ∨ label = kInitializingLabel) := by omega
  obtain ⟨info, hinfo, _⟩ := getInfo_frame hlast t (.refl t)
  obtain ⟨_, rfl, _⟩ := getInfo_ok hinfo
  rw [serialize, if_neg hc, estate_bind_ok hinfo, he]
  simp only [Finset.empty_union]
  rfl

end

end Kirenenko
