import Kirenenko.Pin.LogConsistency

namespace Kirenenko
set_option autoImplicit true

/-- What is to tell a statement from all others. -/
def CondStmt.identity (s : CondStmt) : UInt32 × UInt32 × UInt32 := (s.cid, s.context, s.order)

section
variable (api : TagApi) {g g' : Logger}

theorem LogBuf.Sound.push_ok {b b' : LogBuf} (hb : b.Sound) (h : b.push bytes = .ok b') :
    b'.Sound ∧ b'.content = b.content ++ bytes := by
  by_cases hfit : b.Fits bytes.length
  · obtain ⟨b₁, hok, hb₁, -, hcontent⟩ := hb.push hfit
    cases h.symm.trans hok
    exact ⟨hb₁, hcontent⟩
  · cases h.symm.trans (hb.overflows hfit (bytesAt bytes))

theorem saveTag_rest (h : g.saveTag api lb = .ok g') : g'.rest = g.rest := by
  unfold Logger.saveTag at h
  split at h
  · cases h
  · split at h
    · obtain ⟨b₁, -, h⟩ := except_bind_ok.1 h
      obtain ⟨b₂, -, h⟩ := except_bind_ok.1 h
      obtain ⟨b₃, -, h⟩ := except_bind_ok.1 h
      cases h
      rfl
    · cases h
      rfl

theorem saveMb_keeps (h : g.saveMb i n1 n2 arg1 arg2 = .ok g') :
    g'.condBuf = g.condBuf ∧ g'.numCond = g.numCond ∧ g'.orderMap = g.orderMap := by
  unfold Logger.saveMb at h
  split at h
  · obtain ⟨b₁, -, h⟩ := except_bind_ok.1 h
    obtain ⟨b₂, -, h⟩ := except_bind_ok.1 h
    obtain ⟨b₃, -, h⟩ := except_bind_ok.1 h
    obtain ⟨b₄, -, h⟩ := except_bind_ok.1 h
    obtain ⟨b₅, -, h⟩ := except_bind_ok.1 h
    cases h
    exact ⟨rfl, rfl, rfl⟩
  · cases h
    exact ⟨rfl, rfl, rfl⟩

theorem CondsLogged.saveEntry (h : CondsLogged g es) (hsave : g.saveEntry api e = .ok g') :
    CondsLogged g' (es ++ [e]) ∧ g'.orderMap = g.orderMap := by
  obtain ⟨⟨i, g₁⟩, hcond, hmb⟩ := except_bind_ok.1 hsave
  rw [saveCond_eq] at hcond
  obtain ⟨g₂, htags, hcond⟩ := except_bind_ok.1 hcond
  obtain ⟨b, hpush, hcond⟩ := except_bind_ok.1 hcond
  cases hcond
  have hrest : g₂.rest = (g.numCond + 1, g.rest.2) :=
    foldlM_invariant (Logger.saveTag api) (I := fun g' => g'.rest = (g.numCond + 1, g.rest.2))
      (fun g' lb g'' hg' h => (saveTag_rest api h).trans hg') rfl htags
  simp only [Logger.rest, Prod.mk.injEq] at hrest
  obtain ⟨hnum, -, hbuf, -, horder⟩ := hrest
  rw [hbuf] at hpush
  obtain ⟨hsound, hcontent⟩ := h.sound.push_ok hpush
  have hkept : g'.condBuf = b ∧ g'.numCond = g₂.numCond ∧ g'.orderMap = g₂.orderMap := by
    cases hfn : e.fn with
    | none =>
      rw [hfn] at hmb
      cases hmb
      exact ⟨rfl, rfl, rfl⟩
    | some fn =>
      rw [hfn] at hmb
      exact saveMb_keeps hmb
  obtain ⟨hbuf', hnum', horder'⟩ := hkept
  refine ⟨⟨?_, ?_, ?_⟩, horder'.trans horder⟩
  · rw [hbuf']
    exact hsound
  · rw [hbuf', hcontent, h.content, List.flatMap_append, List.flatMap_singleton]
  · rw [hnum', hnum, h.count, List.length_append, UInt32.ofNat_add]
    rfl

theorem CondsLogged.handle (h : CondsLogged g (logged api calls)) (hcount : Counted g calls)
    (hok : handle api g c = .ok g') :
    CondsLogged g' (logged api (calls ++ [c])) ∧ Counted g' (calls ++ [c]) := by
  rw [handle_eq] at hok
  split at hok
  · cases hok
  · have hstart : CondsLogged (g.getOrder c.cid c.ctx).2 (logged api calls) := by
      rw [getOrder_map]
      exact ⟨h.sound, h.content, h.count⟩
    have hstep : ∀ (g₁ : Logger) (es : List LogEntry) (e : LogEntry) (g₂ : Logger),
        CondsLogged g₁ es ∧ Counted g₁ (calls ++ [c]) → True → g₁.saveEntry api e = .ok g₂ →
        CondsLogged g₂ (es ++ [e]) ∧ Counted g₂ (calls ++ [c]) := by
      rintro g₁ es e g₂ ⟨hconds, hcnt⟩ - hsave
      obtain ⟨hconds₂, horder⟩ := hconds.saveEntry api hsave
      refine ⟨hconds₂, fun cid ctx => ?_⟩
      rw [horder]
      exact hcnt cid ctx
    have hend := foldlM_history_of_ok (Logger.saveEntry api) hstep ⟨hstart, hcount.getOrder c⟩
      (EachRun.of_forall _ fun _ _ => trivial) hok
    rwa [logged_snoc, ← hcount.order]

/-- The low half of an order is the number of the visit. -/
structure LogEntry.OfVisit (e : LogEntry) (c : HandlerCall) (ctr : UInt32) : Prop where
  cid : e.stmt.cid = c.cid
  ctx : e.stmt.context = c.ctx
  limit : ctr ≤ maxOrder
  order : e.stmt.order.toNat % 2 ^ 16 = ctr.toNat

theorem toNat_caseOrder (ctr i : UInt32) :
    (ctr + (i <<< 16)).toNat = (ctr.toNat + i.toNat * 2 ^ 16) % 2 ^ 32 := by
  have h16 : (16 : UInt32).toNat % 32 = 16 := rfl
  rw [UInt32.toNat_add, UInt32.toNat_shiftLeft, h16, Nat.shiftLeft_eq]
  omega

theorem entries_ofVisit (ctr : UInt32) (c : HandlerCall) :
    ∀ e ∈ c.entries api ctr, e.OfVisit c ctr := by
  have hlow : ctr ≤ maxOrder → ctr.toNat % 2 ^ 16 = ctr.toNat := by
    intro h
    have hle : ctr.toNat ≤ 16 := h
    omega
  cases c with
  | cmp cid ctx size op arg1 arg2 cond t1 t2 =>
    intro e he
    rcases List.mem_append.1 he with he | he
    · obtain ⟨⟨-, hctr⟩, he⟩ := List.mem_ite_nil_right.1 he
      rw [List.mem_singleton.1 he]
      refine ⟨rfl, rfl, hctr, ?_⟩
      have hle : ctr.toNat ≤ 16 := hctr
      have hoff : (0x10000 : UInt32).toNat = 2 ^ 16 := rfl
      rw [UInt32.toNat_add, hoff]
      omega
    · obtain ⟨⟨-, hctr⟩, he⟩ := List.mem_ite_nil_right.1 he
      rw [List.mem_singleton.1 he]
      exact ⟨rfl, rfl, hctr, hlow hctr⟩
  | sw cid ctx size cond num args t =>
    intro e he
    obtain ⟨⟨-, hctr⟩, he⟩ := List.mem_ite_nil_right.1 he
    obtain ⟨i, -, rfl⟩ := List.mem_map.1 he
    refine ⟨rfl, rfl, hctr, ?_⟩
    have hle : ctr.toNat ≤ 16 := hctr
    rw [swStmt, toNat_caseOrder]
    omega
  | fn cid ctx size arg1 arg2 t1 t2 =>
    intro e he
    obtain ⟨hctr, he⟩ := List.mem_ite_nil_right.1 he
    split at he
    · rw [List.mem_singleton.1 he]
      exact ⟨rfl, rfl, hctr, hlow hctr⟩
    · obtain ⟨-, he⟩ := List.mem_ite_nil_right.1 he
      rw [List.mem_singleton.1 he]
      exact ⟨rfl, rfl, hctr, hlow hctr⟩
  | exploit cid ctx size op val t =>
    intro e he
    obtain ⟨⟨-, hctr⟩, he⟩ := List.mem_ite_nil_right.1 he
    rw [List.mem_singleton.1 he]
    exact ⟨rfl, rfl, hctr, hlow hctr⟩

/-- The identities of two entries differ. -/
def LogEntry.Apart (e e' : LogEntry) : Prop := e.stmt.identity ≠ e'.stmt.identity

theorem pairwise_if {c : Prop} [Decidable c] (R : α → α → Prop) (a : α) :
    (if c then [a] else []).Pairwise R := by
  split
  · exact List.pairwise_singleton R a
  · exact .nil

/-- One call gives its entries different orders, unless there are more than `2 ^ 16` of them. -/
theorem entries_apart {ctr : UInt32} {c : HandlerCall}
    (hlen : (c.entries api ctr).length ≤ 2 ^ 16) :
    (c.entries api ctr).Pairwise LogEntry.Apart := by
  cases c with
  | cmp cid ctx size op arg1 arg2 cond t1 t2 =>
    simp only [HandlerCall.entries]
    refine List.pairwise_append.2 ⟨pairwise_if _ _, pairwise_if _ _, ?_⟩
    intro e he e' he'
    obtain ⟨-, he⟩ := List.mem_ite_nil_right.1 he
    obtain ⟨-, he'⟩ := List.mem_ite_nil_right.1 he'
    rw [List.mem_singleton.1 he, List.mem_singleton.1 he']
    intro heq
    simp only [CondStmt.identity, Prod.mk.injEq] at heq
    have hnat := congrArg UInt32.toNat heq.2.2
    have hoff : (0x10000 : UInt32).toNat = 2 ^ 16 := rfl
    have hlt := ctr.toNat_lt
    rw [UInt32.toNat_add, hoff] at hnat
    omega
  | sw cid ctx size cond num args t =>
    simp only [HandlerCall.entries] at hlen ⊢
    split at hlen
    case isTrue hsave =>
      rw [if_pos hsave]
      rw [List.length_map, List.length_range] at hlen
      have hctr : ctr.toNat ≤ 16 := hsave.2
      have hnum := num.toNat_lt
      apply List.pairwise_map.2
      apply List.pairwise_lt_range.imp_of_mem
      intro i j hi hj hij heq
      have hi := List.mem_range.1 hi
      have hj := List.mem_range.1 hj
      have hinat : (UInt32.ofNat i).toNat = i := UInt32.toNat_ofNat_of_lt' (Nat.lt_trans hi hnum)
      have hjnat : (UInt32.ofNat j).toNat = j := UInt32.toNat_ofNat_of_lt' (Nat.lt_trans hj hnum)
      simp only [CondStmt.identity, swStmt, Prod.mk.injEq] at heq
      have hnat := congrArg UInt32.toNat heq.2.2
      rw [toNat_caseOrder, toNat_caseOrder, hinat, hjnat] at hnat
      omega
    case isFalse hsave =>
      rw [if_neg hsave]
      exact .nil
  | fn cid ctx size arg1 arg2 t1 t2 =>
    simp only [HandlerCall.entries]
    split
    · split
      · exact List.pairwise_singleton _ _
      · exact pairwise_if _ _
    · exact .nil
  | exploit cid ctx size op val t => exact pairwise_if _ _

theorem logged_ofVisit (calls : List HandlerCall) :
    ∀ e ∈ logged api calls, ∃ v, 0 < v ∧ v ≤ visits calls e.stmt.cid e.stmt.context ∧
      e.stmt.order.toNat % 2 ^ 16 = (UInt32.ofNat v).toNat := by
  induction calls using List.reverseRecOn with
  | nil =>
    intro e he
    cases he
  | append_singleton calls c ih =>
    intro e he
    rw [logged_snoc] at he
    rw [visits_snoc]
    rcases List.mem_append.1 he with he | he
    · obtain ⟨v, hpos, hv, horder⟩ := ih e he
      exact ⟨v, hpos, Nat.le_trans hv (Nat.le_add_right _ _), horder⟩
    · have hvisit := entries_ofVisit api _ c e he
      refine ⟨_, Nat.succ_pos _, ?_, hvisit.order⟩
      rw [hvisit.cid, hvisit.ctx, if_pos ⟨rfl, rfl⟩]

/-- No call saves more statements than the low half of the case number can tell apart. -/
def FewCases (g : Logger) (c : HandlerCall) : Prop :=
  (c.entries api (g.getOrder c.cid c.ctx).1).length ≤ 2 ^ 16

instance (g : Logger) (c : HandlerCall) : Decidable (FewCases api g c) :=
  inferInstanceAs (Decidable (_ ≤ _))

theorem logged_apart {calls : List HandlerCall} {c : HandlerCall}
    (h : (logged api calls).Pairwise LogEntry.Apart)
    (hcases : (c.entries api (.ofNat (visits calls c.cid c.ctx + 1))).length ≤ 2 ^ 16)
    (hvisits : visits (calls ++ [c]) c.cid c.ctx ≤ 2 ^ 32) :
    (logged api (calls ++ [c])).Pairwise LogEntry.Apart := by
  rw [visits_snoc, if_pos ⟨rfl, rfl⟩] at hvisits
  rw [logged_snoc]
  refine List.pairwise_append.2 ⟨h, entries_apart api hcases, ?_⟩
  intro e he e' he' heq
  simp only [CondStmt.identity, Prod.mk.injEq] at heq
  obtain ⟨hcid, hctx, horder⟩ := heq
  have hvisit := entries_ofVisit api _ c e' he'
  obtain ⟨v, hpos, hv, hlow⟩ := logged_ofVisit api calls e he
  rw [hcid, hctx, hvisit.cid, hvisit.ctx] at hv
  rw [horder, hvisit.order, UInt32.toNat_ofNat', UInt32.toNat_ofNat'] at hlow
  omega

/-- What holds after some calls: the log tells of their statements, and these are distinct unless
a counter of visits has wrapped around. -/
structure Distinct (g : Logger) (calls : List HandlerCall) : Prop where
  conds : CondsLogged g (logged api calls)
  counted : Counted g calls
  apart : (∀ cid ctx, visits calls cid ctx ≤ 2 ^ 32) →
    (logged api calls).Pairwise LogEntry.Apart

theorem Distinct.handle (h : Distinct api g calls) (hcases : FewCases api g c)
    (hok : handle api g c = .ok g') : Distinct api g' (calls ++ [c]) := by
  obtain ⟨hconds, hcounted⟩ := h.conds.handle api h.counted hok
  refine ⟨hconds, hcounted, fun hvisits => ?_⟩
  have hbefore : ∀ cid ctx, visits calls cid ctx ≤ 2 ^ 32 := by
    intro cid ctx
    have hle := hvisits cid ctx
    rw [visits_snoc] at hle
    omega
  rw [FewCases, h.counted.order] at hcases
  exact logged_apart api (h.apart hbefore) hcases (hvisits c.cid c.ctx)

/-- The statements in the log are told apart by site, context and order, as long as no call saves
more than `2 ^ 16` of them and no site is visited more than `2 ^ 32` times in one context. -/
theorem identities_distinct (fresh : Nat → UInt8) (calls : List HandlerCall)
    (hrun : calls.foldlM (handle api) (.new fresh) = .ok g)
    (hcases : EachRun (handle api) (FewCases api) (.new fresh) calls)
    (hvisits : ∀ cid ctx, visits calls cid ctx ≤ 2 ^ 32) :
    ∃ conds, records readCond g.condBuf.content = some conds ∧
      conds.Pairwise fun s s' => s.identity ≠ s'.identity := by
  have hstart : Distinct api (.new fresh) [] :=
    ⟨⟨.new fresh, rfl, rfl⟩, Counted.new fresh, fun _ => .nil⟩
  have hend := foldlM_history_of_ok (handle api)
    (fun _ _ _ _ hd hfew hok => hd.handle api hfew hok) hstart hcases hrun
  exact ⟨_, hend.conds.read, List.pairwise_map.2 (hend.apart hvisits)⟩

end

/-- A switch on a labelled value, with some number of cases. -/
def sampleSwitch (num : UInt32) : HandlerCall := .sw 9 0 4 0 num (fun _ => 0) 2

theorem identities_distinct_sample :
    ∃ g, [sampleSwitch 3, sampleSwitch 3].foldlM (handle maskedTags) (.new fun _ => 0) = .ok g ∧
      ∃ conds, records readCond g.condBuf.content = some conds ∧
        conds.Pairwise fun s s' => s.identity ≠ s'.identity := by
  have hcases : EachRun (handle maskedTags) (FewCases maskedTags) (.new fun _ => 0)
      [sampleSwitch 3, sampleSwitch 3] := by
    decide +kernel
  have hok : ([sampleSwitch 3, sampleSwitch 3].foldlM (handle maskedTags)
      (.new fun _ => 0)).toOption.isSome := by
    decide +kernel
  have hvisits : ∀ cid ctx, visits [sampleSwitch 3, sampleSwitch 3] cid ctx ≤ 2 ^ 32 :=
    fun _ _ => Nat.le_trans List.countP_le_length (by decide)
  cases hrun : [sampleSwitch 3, sampleSwitch 3].foldlM (handle maskedTags) (.new fun _ => 0) with
  | error fault =>
    rw [hrun] at hok
    cases hok
  | ok g => exact ⟨g, rfl, identities_distinct maskedTags _ _ hrun hcases hvisits⟩

theorem entries_sampleSwitch (num : UInt32) :
    (sampleSwitch num).entries maskedTags 1 =
      (List.range num.toNat).map fun i => ⟨swStmt 9 0 4 1 0 2 (.ofNat i) 0, none⟩ := rfl

theorem sampleSwitch_logged (num : UInt32) :
    ∃ g, [sampleSwitch num].foldlM (handle maskedTags) (.new fun _ => 0) = .ok g ∧
      records readCond g.condBuf.content =
        some ((List.range num.toNat).map fun i => swStmt 9 0 4 1 0 2 (.ofNat i) 0) := by
  have hsegs : ∀ lb, (maskedTags.segments lb).length ≤ bufLen := by
    intro lb
    rw [TagApi.segments, List.length_map, List.length_range]
    exact (by decide : 12 * (UInt32.ofNat 1).toNat ≤ bufLen)
  have hcall : EachRun (Logger.saveEntry maskedTags) (EntryOk maskedTags)
      ((Logger.new fun _ => 0).getOrder 9 0).2 ((sampleSwitch num).entries maskedTags 1) := by
    apply ((Logged.new maskedTags fun _ => 0).getOrder maskedTags 9 0).entriesOk maskedTags _ hsegs
      (entries_unmasked maskedTags 1 (sampleSwitch num))
    · intro e he
      rw [entries_sampleSwitch] at he
      obtain ⟨i, -, rfl⟩ := List.mem_map.1 he
      exact ⟨(by decide : condSwOp ≠ condFnOp), rfl⟩
    · rw [entries_sampleSwitch, List.length_map, List.length_range, List.length_nil, Nat.zero_add]
      exact num.toNat_lt
  have hok : EachRun (handle maskedTags) (CallOk maskedTags) (.new fun _ => 0)
      [sampleSwitch num] :=
    ⟨⟨id, hcall⟩, fun _ _ => trivial⟩
  obtain ⟨g, hrun, hlog⟩ := logged_run maskedTags (fun _ => 0) hok
  have hlogged : logged maskedTags [sampleSwitch num] = (sampleSwitch num).entries maskedTags 1 :=
    List.append_nil _
  have hread := hlog.conds.read
  rw [hlogged, entries_sampleSwitch, List.map_map] at hread
  exact ⟨g, hrun, hread⟩

/-- The cases `0` and `2 ^ 16` of a switch get the same order. -/
theorem large_switch_clashes :
    ∃ g, [sampleSwitch 65537].foldlM (handle maskedTags) (.new fun _ => 0) = .ok g ∧
      ∃ conds, records readCond g.condBuf.content = some conds ∧
        ¬conds.Pairwise fun s s' => s.identity ≠ s'.identity := by
  obtain ⟨g, hrun, hread⟩ := sampleSwitch_logged 65537
  refine ⟨g, hrun, _, hread, ?_⟩
  intro hpair
  have hdiff := List.pairwise_iff_getElem.1 hpair 0 65536 (by simp) (by simp) (by decide)
  simp only [List.getElem_map, List.getElem_range] at hdiff
  exact hdiff (by decide)

end Kirenenko
