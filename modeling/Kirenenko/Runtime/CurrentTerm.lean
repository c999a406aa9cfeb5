import Kirenenko.Runtime.HashConsing

namespace Kirenenko
set_option autoImplicit true

/-- The term `serialize` gives a label in the present state: what is cached is not built again,
also if memory has changed since. -/
def currentTerm (z : Z3) (mem : Memory) (t : LabelTable) (label : Nat) : Except Exn Term :=
  if label < constOffset ∨ label = kInitializingLabel then .error (.z3 (.msg "invalid label"))
  else
    match (t.info label).expr with
    | some e => .ok e
    | none =>
      nodeTerm z mem t.key (t.key label) fun l =>
        if _h : l < label then currentTerm z mem t l else .error (.fault .stackOverflow)
termination_by label

/-- A later state that has no more in its caches than the terms its labels had before. -/
structure Refreshed (z : Z3) (mem : Memory) (t t' : LabelTable) : Prop where
  grows : Extends t t'
  expr : ∀ l, constOffset ≤ l → l ≤ t.lastLabel → (t'.info l).expr = (t.info l).expr ∨
    ∃ e, (t'.info l).expr = some e ∧ currentTerm z mem t l = .ok e

/-- A record whose term depends on nothing but the record. -/
def IsPlain (k : LabelKey) (e : Term) : Prop :=
  ∀ z mem key sub, nodeTerm z mem key k sub = .ok e

/-- The term of a label will not change, unless it is the result of a comparison of buffers. -/
def TermFixed (t : LabelTable) (l : Nat) (e : Term) : Prop :=
  (t.info l).expr = some e ∨ (t.info l).expr = none ∧ IsPlain (t.key l) e ∨
    (t.key l).op = Operators.fmemcmp.code ∧ e.sort = some (.bv 32)

/-- The cached term of a common operator was built on a first operand that is fixed. -/
def BuiltOnFixed (z : Z3) (t : LabelTable) (l : Nat) (e : Term) : Prop :=
  isSpecialOp (t.key l).op = false → constOffset ≤ (t.key l).l1 →
    ∃ mem sub a, nodeTerm z mem t.key (t.key l) sub = .ok e ∧ sub (t.key l).l1 = .ok a ∧
      TermFixed t (t.key l).l1 a

def CachesFixed (z : Z3) (t : LabelTable) : Prop :=
  ∀ l e, constOffset ≤ l → l ≤ t.lastLabel → (t.info l).expr = some e → BuiltOnFixed z t l e

section
variable {z : Z3} {mem : Memory} {t t' : LabelTable} {l : Nat} {e : Term}

theorem currentTerm_cached (ho : Ordered t) (hlo : constOffset ≤ l) (hl : l ≤ t.lastLabel)
    (he : (t.info l).expr = some e) : currentTerm z mem t l = .ok e := by
  have hb := ho.bound
  have hc : ¬(l < constOffset ∨ l = kInitializingLabel) := by omega
  rw [currentTerm, if_neg hc, he]

theorem currentTerm_node (ho : Ordered t) (hlo : constOffset ≤ l) (hl : l ≤ t.lastLabel)
    (he : (t.info l).expr = none) :
    currentTerm z mem t l = nodeTerm z mem t.key (t.key l) (currentTerm z mem t) := by
  have hb := ho.bound
  have hc : ¬(l < constOffset ∨ l = kInitializingLabel) := by omega
  rw [currentTerm, if_neg hc, he]
  refine nodeTerm_congr ?_ ?_ rfl fun _ => rfl
  · intro _ _
    rw [dif_pos (ho.l1 l hlo hl)]
  · intro _ hL
    rw [dif_pos (ho.l2 l hlo hl hL)]

theorem Refreshed.currentTerm (h : Refreshed z mem t t') (ho : Ordered t) (ho' : Ordered t')
    (hl : l ≤ t.lastLabel) : currentTerm z mem t' l = currentTerm z mem t l := by
  induction l using Nat.strongRecOn with
  | ind l ih =>
    by_cases hc : l < constOffset ∨ l = kInitializingLabel
    · rw [Kirenenko.currentTerm, if_pos hc, Kirenenko.currentTerm, if_pos hc]
    have hlo : constOffset ≤ l := by omega
    have hl' := Nat.le_trans hl h.grows.lastLabel
    rcases h.expr l hlo hl with hsame | ⟨e, he, hterm⟩
    · cases he : (t.info l).expr with
      | some e =>
        rw [currentTerm_cached ho hlo hl he, currentTerm_cached ho' hlo hl' (hsame.trans he)]
      | none =>
        rw [currentTerm_node ho hlo hl he, currentTerm_node ho' hlo hl' (hsame.trans he),
          h.grows.key l hl]
        have h1 := ho.l1 l hlo hl
        have h2 := ho.l2 l hlo hl
        refine nodeTerm_congr ?_ ?_ ?_ ?_
        · intro _ _
          exact ih _ h1 (by omega)
        · intro _ hL
          have := h2 hL
          exact ih _ this (by omega)
        · exact h.grows.key _ (by omega)
        · intro hL
          have := h2 hL
          exact h.grows.key _ (by omega)
    · rw [hterm, currentTerm_cached ho' hlo hl' he]

theorem Refreshed.refl (t : LabelTable) : Refreshed z mem t t :=
  ⟨.refl t, fun _ _ _ => .inl rfl⟩

theorem Refreshed.trans (h : Refreshed z mem t u) (h' : Refreshed z mem u v) (ho : Ordered t)
    (hu : Ordered u) : Refreshed z mem t v where
  grows := h.grows.trans h'.grows
  expr l hlo hl := by
    rcases h'.expr l hlo (Nat.le_trans hl h.grows.lastLabel) with hsame | ⟨e, he, hterm⟩
    · rw [hsame]
      exact h.expr l hlo hl
    · exact .inr ⟨e, he, (h.currentTerm ho hu hl).symm.trans hterm⟩

theorem isPlain_raw (h : k.op = 0) (he : nodeTerm z mem key k sub = .ok e) : IsPlain k e := by
  intro z' mem' key' sub'
  rw [nodeTerm_raw h] at he ⊢
  exact he

theorem nodeTerm_fsize (h : k.op = Operators.fsize.code) :
    nodeTerm z mem key k sub = ofZ3 (fsizeTerm k.op1 k.size) := by
  rw [nodeTerm, h, if_neg (by decide), if_neg (by decide), if_neg (by decide), if_neg (by decide),
    if_neg (by decide), if_neg (by decide), if_neg (by decide), if_neg (by decide),
    if_neg (by decide), if_pos rfl]

theorem isPlain_fsize (h : k.op = Operators.fsize.code)
    (he : nodeTerm z mem key k sub = .ok e) : IsPlain k e := by
  intro z' mem' key' sub'
  rw [nodeTerm_fsize h] at he ⊢
  exact he

theorem nodeTerm_memcmp_sort (h : k.op = Operators.fmemcmp.code)
    (he : nodeTerm z mem key k sub = .ok e) : e.sort = some (.bv 32) := by
  obtain ⟨_, e1, e2, _, _, he⟩ := (nodeTerm_memcmp h).1 he
  obtain ⟨rfl, σ, hσ⟩ := checked_eq_ok.1 he
  rw [hσ, (Term.sort_inversion (Term.sort_inversion hσ).2.1).1]

theorem Filled.fixed (h : Filled t t l) (ho : Ordered t) (hlo : constOffset ≤ l)
    (hl : l ≤ t.lastLabel) (he : currentTerm z mem t l = .ok e) : TermFixed t l e := by
  cases hx : (t.info l).expr with
  | some e' =>
    cases (currentTerm_cached ho hlo hl hx).symm.trans he
    exact .inl hx
  | none =>
    rw [currentTerm_node ho hlo hl hx] at he
    cases hop : isUncachedOp (t.key l).op with
    | false => exact (h hop hx).elim
    | true =>
      simp only [isUncachedOp, Bool.or_eq_true, beq_iff_eq] at hop
      rcases hop with (hop | hop) | hop
      · exact .inr (.inl ⟨hx, isPlain_raw hop he⟩)
      · exact .inr (.inr ⟨hop, nodeTerm_memcmp_sort hop he⟩)
      · exact .inr (.inl ⟨hx, isPlain_fsize hop he⟩)

theorem TermFixed.currentTerm (h : TermFixed t l e) (ho : Ordered t) (hlo : constOffset ≤ l)
    (hl : l ≤ t.lastLabel) (hsort : e.sort ≠ some (.bv 32)) : currentTerm z mem t l = .ok e := by
  rcases h with h | ⟨hnone, hplain⟩ | ⟨_, hs⟩
  · exact currentTerm_cached ho hlo hl h
  · rw [currentTerm_node ho hlo hl hnone, hplain]
  · exact (hsort hs).elim

theorem Refreshed.fixed (h : Refreshed z mem t t') (ho : Ordered t) (hlo : constOffset ≤ l)
    (hl : l ≤ t.lastLabel) (hs : TermFixed t l e) : TermFixed t' l e := by
  unfold TermFixed
  rw [h.grows.key l hl]
  rcases hs with hs | ⟨hnone, hplain⟩ | hcmp
  · rcases h.expr l hlo hl with hsame | ⟨e', he', hterm⟩
    · exact .inl (hsame.trans hs)
    · cases (currentTerm_cached ho hlo hl hs).symm.trans hterm
      exact .inl he'
  · rcases h.expr l hlo hl with hsame | ⟨e', he', hterm⟩
    · exact .inr (.inl ⟨hsame.trans hnone, hplain⟩)
    · rw [currentTerm_node ho hlo hl hnone, hplain] at hterm
      cases hterm
      exact .inl he'
  · exact .inr (.inr hcmp)

theorem Refreshed.builtOnFixed (h : Refreshed z mem t t') (ho : Ordered t)
    (hlo : constOffset ≤ l) (hl : l ≤ t.lastLabel) (hb : BuiltOnFixed z t l e) :
    BuiltOnFixed z t' l e := by
  unfold BuiltOnFixed
  rw [h.grows.key l hl]
  intro hop hge
  obtain ⟨m, sub, a, hn, ha, hs⟩ := hb hop hge
  have h1 := ho.l1 l hlo hl
  have hL : (t.key l).op ≠ Operators.Load.code := by
    intro hL
    rw [hL] at hop
    cases hop
  have h2 := ho.l2 l hlo hl hL
  refine ⟨m, sub, a, ?_, ha, h.fixed ho hge (by omega) hs⟩
  rw [← hn]
  exact nodeTerm_congr (fun _ _ => rfl) (fun _ _ => rfl) (h.grows.key _ (by omega))
    fun _ => h.grows.key _ (by omega)

/-- States of one serialization: the caches hold the terms the labels had at its start. -/
structure CurrentFrame (z : Z3) (mem : Memory) (t s : LabelTable) : Prop where
  same : SameKeys t s
  fresh : Refreshed z mem t s
  fixed : CachesFixed z s

theorem CurrentFrame.start (hc : CachesFixed z t) : CurrentFrame z mem t t where
  same := .refl t
  fresh := .refl t
  fixed := hc

theorem CurrentFrame.modifyInfo {f : LabelInfo → LabelInfo} (h : CurrentFrame z mem t s)
    (ho : Ordered t) (hk : ∀ info, (f info).toLabelKey = info.toLabelKey)
    (hf : ∀ info, (f info).expr = info.expr ∨ ∃ e, (f info).expr = some e ∧
      currentTerm z mem t label = .ok e ∧ BuiltOnFixed z s label e) :
    CurrentFrame z mem t (s.modifyInfo label f) := by
  have hos := ho.sameKeys h.same
  have hsame := SameKeys.modifyInfo s label hk
  have hexpr : ∀ l, ((s.modifyInfo label f).info l).expr = (s.info l).expr ∨
      l = label ∧ ∃ e, ((s.modifyInfo label f).info l).expr = some e ∧
        currentTerm z mem t label = .ok e ∧ BuiltOnFixed z s label e := by
    intro l
    rcases modifyInfo_cases s label f l with ⟨rfl, hinfo⟩ | hinfo
    · rw [hinfo]
      exact (hf _).imp_right fun h => ⟨rfl, h⟩
    · exact .inl (congrArg LabelInfo.expr hinfo)
  have hfresh : Refreshed z mem s (s.modifyInfo label f) := by
    refine ⟨hsame.extends, ?_⟩
    intro l _ hl
    rcases hexpr l with hx | ⟨rfl, e, hx, he, _⟩
    · exact .inl hx
    · refine .inr ⟨e, hx, ?_⟩
      rw [h.same.lastLabel] at hl
      exact (h.fresh.currentTerm ho hos hl).trans he
  refine ⟨h.same.trans hsame, h.fresh.trans hfresh ho hos, ?_⟩
  intro l e hlo hl he
  apply hfresh.builtOnFixed hos hlo hl
  rcases hexpr l with hx | ⟨rfl, e', hx, _, hb⟩
  · exact h.fixed l e hlo hl (hx.symm.trans he)
  · cases he.symm.trans hx
    exact hb

/-- A term that is cached now is built on a first operand that has been filled before. -/
theorem CurrentFrame.builtOnFixed (h : CurrentFrame z mem t s) (ho : Ordered t)
    (hlo : constOffset ≤ l) (hl : l ≤ t.lastLabel) (he : currentTerm z mem t l = .ok e)
    (hfill : OperandFilled t s l) : BuiltOnFixed z s l e := by
  have hos := ho.sameKeys h.same
  have hls : l ≤ s.lastLabel := by rw [h.same.lastLabel]; exact hl
  rw [← h.fresh.currentTerm ho hos hl] at he
  cases hx : (s.info l).expr with
  | some e' =>
    cases (currentTerm_cached hos hlo hls hx).symm.trans he
    exact h.fixed l e hlo hls hx
  | none =>
    intro hop hge
    rw [currentTerm_node hos hlo hls hx] at he
    obtain ⟨_, _, e1, _, h1, _⟩ := (nodeTerm_common hop).1 he
    rw [operandTermOf, if_pos hge, except_map_ok] at h1
    obtain ⟨a, ha, _⟩ := h1
    have hlt := hos.l1 l hlo hls
    refine ⟨mem, currentTerm z mem s, a, he, ha, ?_⟩
    apply Filled.fixed _ hos hge (by omega) ha
    unfold OperandFilled Filled at hfill
    rw [← h.same.key] at hfill
    exact hfill hop hge

theorem currentFrame_invariant (z : Z3) (mem : Memory) (ho : Ordered t) :
    CacheInvariant z mem (fun e e' => e = e') t (currentTerm z mem t) (CurrentFrame z mem t) where
  same _ hs := hs.same
  invalid l hl := by rw [currentTerm, if_pos hl]
  cached s l e hs hlo hl he := by
    refine ⟨e, ?_, rfl⟩
    rw [← hs.fresh.currentTerm ho (ho.sameKeys hs.same) hl]
    rw [← hs.same.lastLabel] at hl
    exact currentTerm_cached (ho.sameKeys hs.same) hlo hl he
  node s l hs hlo hl he := by
    rcases hs.fresh.expr l hlo hl with hsame | ⟨e, he', _⟩
    · exact currentTerm_node ho hlo hl (hsame.symm.trans he)
    · cases he.symm.trans he'
  treeSize _ _ _ hs := hs.modifyInfo ho (fun _ => rfl) fun _ => .inl rfl
  cache s l e e' deps hs hlo hl h he hop := by
    subst he
    refine hs.modifyInfo ho (fun _ => rfl) ?_
    intro info
    exact .inr ⟨e, rfl, h, hs.builtOnFixed ho hlo hl h hop⟩

/-- Whatever has become of memory since the caches were filled, `serialize` gives a label its
current term. -/
theorem simulates_currentTerm (ho : Ordered t) (hl : l ≤ t.lastLabel) (hf : l < fuel) :
    Simulates (CurrentFrame z mem t) (fun p e => p.1 = e) (serialize z mem fuel l deps)
      (currentTerm z mem t l) :=
  (currentFrame_invariant z mem ho).simulates (.eq z mem) ho hl hf

theorem CachesFixed.serialize (h : CachesFixed z t) (ho : Ordered t) (hl : l ≤ t.lastLabel) :
    (∃ deps t', Kirenenko.serialize z mem (l + 1) l deps₀ t = .ok (e, deps) t') ↔
      currentTerm z mem t l = .ok e :=
  (simulates_currentTerm ho hl (Nat.lt_succ_self l)).returns_iff (.start h)

theorem extended_exprs (t : LabelTable) {info : LabelInfo} (hinfo : info.expr = none) :
    (∀ l, l ≤ t.lastLabel → ((t.extended info).info l).expr = (t.info l).expr) ∧
      ∀ l, t.lastLabel < l → l ≤ (t.extended info).lastLabel →
        ((t.extended info).info l).expr = none := by
  unfold LabelTable.extended
  refine ⟨?_, ?_⟩
  · intro l hl
    have hne : l ≠ t.lastLabel + 1 := by omega
    simp only [Function.update_of_ne hne]
  · intro l hlt hle
    have heq : l = t.lastLabel + 1 := Nat.le_antisymm hle hlt
    simp only [heq, Function.update_self, hinfo]

theorem TableStep.expr (hs : s.Inv) (h : TableStep z s a s')
    (ha : ∀ mem label deps, a ≠ .serialize mem label deps) :
    (∀ l, l ≤ s.table.lastLabel → (s'.table.info l).expr = (s.table.info l).expr) ∧
      ∀ l, s.table.lastLabel < l → l ≤ s'.table.lastLabel → (s'.table.info l).expr = none := by
  cases h with
  | create hc =>
    rcases TableInv.dfsanCreateLabel hs _ with ⟨_, hr⟩ | ⟨_, info, hinfo, hr⟩
    · rw [hr] at hc
      cases hc
    · rw [hr] at hc
      cases hc
      exact extended_exprs s.table hinfo.expr
  | union _ hu =>
    rw [TableHistory.afterUnion_table]
    cases TableInv.taintUnion_ok hs hu with
    | const | init | found => exact ⟨fun _ _ => rfl, fun l h h' => absurd h (Nat.not_lt.2 h')⟩
    | fresh _ _ _ _ hinfo => exact extended_exprs s.table hinfo.expr
  | serialize => exact (ha _ _ _ rfl).elim
  | flip hl =>
    exact ⟨fun l _ => (flip_info s.table _ l).1, fun l h h' => absurd h (Nat.not_lt.2 h')⟩

theorem TableStep.refreshed (hs : s.Inv) (hc : CachesFixed z s.table)
    (h : TableStep z s a s') :
    (∀ mem, (∀ m label deps, a = .serialize m label deps → m = mem) →
      Refreshed z mem s.table s'.table) ∧ CachesFixed z s'.table := by
  have ho := TableInv.ordered hs
  by_cases hser : ∀ m label deps, a ≠ .serialize m label deps
  · obtain ⟨hold, hnew⟩ := h.expr hs hser
    have hfresh : ∀ mem, Refreshed z mem s.table s'.table := fun _ =>
      ⟨h.extends hs, fun l _ hl => .inl (hold l hl)⟩
    refine ⟨fun mem _ => hfresh mem, ?_⟩
    intro l e hlo hl he
    by_cases hle : l ≤ s.table.lastLabel
    · rw [hold l hle] at he
      exact (hfresh fun _ => 0).builtOnFixed ho hlo hle (hc l e hlo hle he)
    · cases (hnew l (by omega) hl).symm.trans he
  · cases h with
    | @serialize label _ m deps hl =>
      have hframe : CurrentFrame z m s.table
          (finalState (Kirenenko.serialize z m (label + 1) label deps s.table)) :=
        (simulates_currentTerm ho hl (Nat.lt_succ_self label)).finalState (.start hc)
      refine ⟨?_, hframe.fixed⟩
      intro mem hmem
      cases hmem m label deps rfl
      exact hframe.fresh
    | create | union | flip => exact (hser fun _ _ _ => nofun).elim

theorem Steps.refreshed (h : Steps (TableStep z) s as s') (hs : s.Inv)
    (hc : CachesFixed z s.table)
    (has : ∀ m label deps, TableOp.serialize m label deps ∈ as → m = mem) :
    Refreshed z mem s.table s'.table := by
  induction h with
  | nil => exact .refl _
  | cons hstep _ ih =>
    have hi := (hstep.inv hs).1
    obtain ⟨hfresh, hc'⟩ := hstep.refreshed hs hc
    refine (hfresh mem ?_).trans (ih hi hc' ?_) (TableInv.ordered hs) (TableInv.ordered hi)
    · rintro m label deps rfl
      exact has m label deps List.mem_cons_self
    · intro m label deps ha
      exact has m label deps (List.mem_cons_of_mem _ ha)

theorem Steps.cachesFixed (h : Steps (TableStep z) .initial as s) : CachesFixed z s.table := by
  refine (h.invariant (I := fun s => s.Inv ∧ CachesFixed z s.table) ?_
    ⟨TableHistory.initial_inv, ?_⟩).2
  · rintro s₁ a s₂ ⟨hi, hc⟩ hstep
    exact ⟨(hstep.inv hi).1, (hstep.refreshed hi hc).2⟩
  · intro l e _ _ he
    cases (initial_expr l).symm.trans he

end

end Kirenenko
