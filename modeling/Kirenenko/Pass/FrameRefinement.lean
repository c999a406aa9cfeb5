import Kirenenko.Pass.InstRefinement

namespace Kirenenko
set_option autoImplicit true

theorem lookup_map_snd [BEq α] (xs : List (α × β)) (f : β → γ) (a : α) :
    (xs.map fun x => (x.1, f x.2)).lookup a = (xs.lookup a).map f := by
  induction xs with
  | nil => rfl
  | cons x xs ih =>
    rw [List.map_cons, List.lookup_cons, List.lookup_cons]
    cases a == x.1 with
    | true => rfl
    | false => exact ih

section
variable {σ : Type} {R : Reaction σ} {host : IrHost} {callers : List TraceSite}
  {f : IrFunction} {b t j id : Nat} {blk tblk : IrBlock} {done rest : List (Nat × IrInst)}
  {l : Locals} {g : LabelFrame} {c : CodeFrame} {s : CodeStore σ} {tail : List Code}

theorem phiShadows_eq {phis : List IrPhi} (hx : phiValues l c.block phis = some xs)
    (heval : ∀ φ ∈ phis, ∀ v, φ.incoming.lookup c.block = some v →
      c.eval (f.shadow v) = some (g.label v)) :
    c.phiShadows (phis.map fun φ => (φ.id, φ.incoming.map fun x => (x.1, f.shadow x.2))) =
        some (phiLabels g c.block phis) ∧
      (phiLabels g c.block phis).map Prod.fst = phis.map IrPhi.id := by
  induction phis generalizing xs with
  | nil => exact ⟨rfl, rfl⟩
  | cons φ phis ih =>
    simp only [phiValues, List.mapM_cons, Option.bind_eq_bind, Option.bind_eq_some_iff] at hx
    obtain ⟨x, ⟨v, hv, -⟩, ys, hys, -⟩ := hx
    obtain ⟨hshadows, hkeys⟩ := ih hys fun ψ hψ => heval ψ (List.mem_cons_of_mem _ hψ)
    have hlabels : phiLabels g c.block (φ :: phis) =
        (φ.id, g.label v) :: phiLabels g c.block phis := by
      simp only [phiLabels, List.filterMap_cons, hv, Option.map_some]
    rw [hlabels]
    refine ⟨?_, congrArg (φ.id :: ·) hkeys⟩
    unfold CodeFrame.phiShadows at hshadows ⊢
    rw [List.map_cons, List.mapM_cons, hshadows, lookup_map_snd, hv]
    simp only [Option.map_some, Option.bind_eq_bind, Option.bind_some,
      heval φ List.mem_cons_self v hv, pure]

theorem IrFunction.Available.of_successor (h : f.Available t [] j) (ht : t ∈ f.successors b)
    (hblk : f.blocks[b]? = some blk) :
    f.Available b (blk.phis.map IrPhi.id ++ blk.body.map Prod.fst) j := by
  rcases h with ⟨d, hd, hj⟩ | hj
  · rcases hd.step ht with rfl | hd
    · rw [f.defsOf_eq hblk] at hj
      exact .inr hj
    · exact .inl ⟨d, hd, hj⟩
  · cases hj

theorem IrFunction.Available.shadow_before (h : f.Available t [] j) (hf : f.WellFormed)
    (ho : f.visitOrder = before ++ t :: after) (hr : f.shadow (.inst j) = .inst r) :
    r ∈ before.flatMap f.defsOf := by
  rcases h with ⟨d, hd, hj⟩ | hj
  · obtain ⟨pre, mid, hbefore⟩ := List.append_of_mem (f.visitOrder_spec.2.1.dominator_before ho hd)
    cases hdblk : f.blocks[d]? with
    | none =>
      rw [defsOf, hdblk] at hj
      cases hj
    | some dblk =>
      have p : f.Place pre d (mid ++ t :: after) dblk dblk.body [] := by
        refine ⟨?_, hdblk, (List.append_nil _).symm⟩
        rw [ho, hbefore, List.append_assoc]
        rfl
      have hdefs : ∀ k, k ∈ visitedAt f pre dblk dblk.body ↔ k ∈ (pre ++ [d]).flatMap f.defsOf := by
        intro k
        rw [List.flatMap_append, List.flatMap_singleton, f.defsOf_eq hdblk]
        exact Iff.rfl
      have hvis := (hdefs j).2 (List.mem_flatMap.2
        ⟨d, List.mem_append_right _ List.mem_cons_self, hj⟩)
      have hmem := (hdefs r).1 (p.shadow_visited hf hvis hr)
      rw [hbefore, ← List.singleton_append, ← List.append_assoc, List.flatMap_append]
      exact List.mem_append_left _ hmem
  · cases hj

theorem IrFunction.WellFormed.not_phi (hf : f.WellFormed)
    (ho : f.visitOrder = before ++ t :: after) (htblk : f.blocks[t]? = some tblk)
    (hj : j ∈ before.flatMap f.defsOf) : j ∉ tblk.phis.map IrPhi.id := by
  intro hphi
  have hnodup := hf.ids_nodup
  rw [visitIds, ho, List.flatMap_append, List.flatMap_cons, f.defsOf_eq htblk,
    List.nodup_append] at hnodup
  exact hnodup.2.2 j hj j (List.mem_append_left _ (List.mem_append_left _ hphi)) rfl

theorem IrFunction.WellFormed.phi_usable (hf : f.WellFormed) (hb : b ∈ f.visitOrder)
    (hblk : f.blocks[b]? = some blk) (ht : t ∈ f.successors b) (htblk : f.blocks[t]? = some tblk)
    (hφ : φ ∈ tblk.phis) (hv : φ.incoming.lookup b = some v) :
    f.Usable b (blk.phis.map IrPhi.id ++ blk.body.map Prod.fst) v := by
  obtain ⟨pre, post, hsplit, -⟩ := List.lookup_eq_some_iff.1 hv
  have hmem : (b, v) ∈ φ.incoming := by
    rw [hsplit]
    exact List.mem_append_right _ List.mem_cons_self
  constructor
  · rintro j rfl
    have havail := hf.phis t tblk htblk φ hφ b j hmem ht
    rw [f.defsOf_eq hblk] at havail
    exact havail
  · rintro k rfl
    have htv := f.visitOrder_spec.2.2.2 b hb t ht
    exact (f.mem_shadowArgs k).2 ⟨t, htv, tblk, htblk, .inr
      (List.mem_flatMap.2 ⟨φ, hφ, List.mem_map.2 ⟨_, hmem, rfl⟩⟩)⟩

theorem lookup_isSome_of_mem {xs : List (Nat × Nat)} (h : j ∈ xs.map Prod.fst) :
    ∃ x, xs.lookup j = some x := by
  cases hx : xs.lookup j with
  | some x => exact ⟨x, rfl⟩
  | none =>
    obtain ⟨y, hy, rfl⟩ := List.mem_map.1 h
    exact absurd rfl (bne_iff_ne.1 (List.lookup_eq_none_iff.1 hx y hy))

theorem lookup_of_not_mem {xs : List (Nat × Nat)} (h : j ∉ xs.map Prod.fst) :
    xs.lookup j = none := by
  rw [List.lookup_eq_none_iff]
  intro y hy
  refine bne_iff_ne.2 fun he => h ?_
  exact List.mem_map.2 ⟨y, hy, he.symm⟩

theorem Carries.jump (h : Carries f b blk blk.body l g c) (hf : f.WellFormed)
    (hb : b ∈ f.visitOrder) (hblk : f.blocks[b]? = some blk) (ht : t ∈ f.successors b)
    (htblk : f.blocks[t]? = some tblk) (hx : phiValues l b tblk.phis = some xs)
    (codes : List Code) (term : IrTerm) :
    c.phiShadows (tblk.phis.map fun φ => (φ.id, φ.incoming.map fun x => (x.1, f.shadow x.2))) =
        some (phiLabels g b tblk.phis) ∧
      Carries f t tblk [] (l.setAll xs) (g.enter b tblk.phis)
        { c with block := t, rest := codes, term := term, locals := l.setAll xs,
                 shadows := fun id =>
                   ((phiLabels g b tblk.phis).lookup id).or (c.shadows id) } := by
  obtain ⟨before, after, ho⟩ := List.append_of_mem (f.visitOrder_spec.2.2.2 b hb t ht)
  have hcb := h.block
  subst hcb
  obtain ⟨hshadows, hkeys⟩ := phiShadows_eq (f := f) (g := g) hx fun φ hφ v hv =>
    h.eval_shadow (hf.phi_usable hb hblk ht htblk hφ hv)
  refine ⟨hshadows, h.func, rfl, rfl, ?_, ?_, h.args, h.slots⟩
  · intro j hj
    by_cases hphi : j ∈ tblk.phis.map IrPhi.id
    · obtain ⟨label, hlabel⟩ := lookup_isSome_of_mem (hkeys.symm ▸ hphi)
      rw [hf.shadow_phi (f.visitOrder_spec.2.2.2 _ hb t ht) htblk hphi]
      simp only [CodeFrame.eval, LabelFrame.enter, hlabel]
      rfl
    · have hstart : f.Available t [] j := by
        refine hj.imp_right fun hmem => ?_
        rw [List.map_nil, List.append_nil] at hmem
        exact absurd hmem hphi
      have hold := h.shadows j (hstart.of_successor ht hblk)
      simp only [LabelFrame.enter, lookup_of_not_mem (hkeys.symm ▸ hphi)]
      refine Eq.trans ?_ hold
      cases hs : f.shadow (.inst j) with
      | zero => rfl
      | arg k => rfl
      | inst r =>
        have hr := hf.not_phi ho htblk (hstart.shadow_before hf ho hs)
        simp only [CodeFrame.eval, lookup_of_not_mem (hkeys.symm ▸ hr), Option.none_or]
  · intro j hz
    have hphi : j ∉ tblk.phis.map IrPhi.id := by
      intro hphi
      cases hz.symm.trans (hf.shadow_phi (f.visitOrder_spec.2.2.2 _ hb t ht) htblk hphi)
    simp only [LabelFrame.enter, lookup_of_not_mem (hkeys.symm ▸ hphi)]
    exact h.unlabelled j hz

theorem execCodes_storeArgTls {labels : Nat → Nat} (args : List (Nat × IrValue)) (n : Nat)
    (heval : ∀ k a, args[k]? = some a → c.eval (f.shadow a.2) = some (labels (n + k)))
    (hn : n + args.length ≤ argTlsSize) :
    execCodes R host callers tail c s
        ((args.zipIdx n).map fun x => .storeArgTls x.2 (f.shadow x.1.2)) =
      .ok ({ c with rest := tail },
        { s with argTls := writeLoop 0 labels n args.length s.argTls }) := by
  induction args generalizing n c s with
  | nil => rfl
  | cons a args ih =>
    rw [List.length_cons] at hn
    have ha : c.eval (f.shadow a.2) = some (labels n) := heval 0 a rfl
    have hroom : n < argTlsSize := by omega
    rw [List.zipIdx_cons, List.map_cons, execCodes_cons]
    simp only [execCode, ha, if_pos hroom, defined_some_bind]
    refine (ih (n + 1) ?_ (by omega)).trans ?_
    · intro k b hb
      rw [Nat.add_right_comm]
      exact heval (k + 1) b hb
    · rw [List.length_cons, writeLoop, Nat.zero_add]

theorem execCodes_loadArgTls (ks : List Nat) :
    execCodes R host callers tail c s (ks.map .loadArgTls) =
      .ok ({ c with
        rest := tail, args := fun i => if i ∈ ks then some (s.argTls i) else c.args i }, s) := by
  induction ks generalizing c with
  | nil => rfl
  | cons k ks ih =>
    rw [List.map_cons, execCodes_cons]
    refine ih.trans ?_
    have hargs : (fun i => if i ∈ ks then some (s.argTls i)
        else Function.update c.args k (some (s.argTls k)) i) =
        fun i => if i ∈ k :: ks then some (s.argTls i) else c.args i := by
      funext i
      by_cases hi : i ∈ ks
      · rw [if_pos hi, if_pos (List.mem_cons_of_mem _ hi)]
      · rw [if_neg hi]
        by_cases hk : i = k
        · rw [hk, Function.update_self, if_pos List.mem_cons_self]
        · rw [Function.update_of_ne hk, if_neg fun h => (List.mem_cons.1 h).elim hk hi]
    simp only [hargs]

theorem Carries.start (hf : f.WellFormed) (hblk : f.blocks[0]? = some blk)
    (hfunc : c.func = f.instrument) (hblock : c.block = 0) (hlocals : c.locals = .enter xs)
    (hvars : ∀ j, g.regs j = 0) (hargs : ∀ k ∈ f.shadowArgs, c.args k = some (g.args k)) :
    Carries f 0 blk [] (.enter xs) g c := by
  refine ⟨hfunc, hblock, hlocals, ?_, fun j _ => hvars j, hargs, ?_⟩
  · rintro j (⟨d, hd, -⟩ | hj)
    · exact hd.not_entry.elim
    · rw [hf.entryPhis blk hblk] at hj
      cases hj
  · intro a x ha
    cases ha

theorem execCodes_traceCmp {v : Shadow} {q : IrValue} {f0 : TraceSite}
    (hsite : f0 = ⟨c.func.name, c.block, none⟩) (hv : c.eval v = some label)
    (hq : c.locals.read w q = some x) (ys : List ((Nat × Nat) × Nat)) :
    execCodes R host callers tail c s
        (ys.map fun y => .traceCmp y.2 v w q (y.1.1 % 2 ^ w % 2 ^ 64)) =
      (do let S ← (ys.map fun y => TraceCall.cmp (f0 :: callers) y.2 label w (x % 2 ^ 64)
              (y.1.1 % 2 ^ w % 2 ^ 64)).foldlM (LabelStore.trace R s.memory.mem) s.labels
          return ({ c with rest := tail }, s.withLabels S)) := by
  induction ys generalizing c s with
  | nil => rfl
  | cons y ys ih =>
    rw [List.map_cons, List.map_cons, List.foldlM_cons, execCodes_cons]
    simp only [execCode, hv, hq, defined_some_bind, ← hsite]
    cases s.labels.trace R s.memory.mem _ with
    | error e => rfl
    | ok S => exact ih hsite hv hq

theorem foldlM_trace_unlabelled (mem : Nat → UInt8) (S : LabelStore σ) (calls : List TraceCall)
    (h : ∀ call ∈ calls, call.label = 0) :
    calls.foldlM (LabelStore.trace R mem) S = .ok S := by
  induction calls with
  | nil => rfl
  | cons call calls ih =>
    rw [List.foldlM_cons, LabelStore.trace_unlabelled S mem (h call List.mem_cons_self)]
    exact ih fun call hcall => h call (List.mem_cons_of_mem _ hcall)

/-- The labels that a terminator leaves behind when it goes to a block. -/
def IrTerm.traced (R : Reaction σ) (stack : List TraceSite) (mem : Nat → UInt8) (l : Locals)
    (g : LabelFrame) (S : LabelStore σ) (term : IrTerm) : Except Stop (LabelStore σ) := do
  let calls ← term.traceCalls stack l g
  calls.foldlM (LabelStore.trace R mem) S

theorem IrTerm.target_mem {term : IrTerm} (h : term.target l = .ok t) : t ∈ term.successors := by
  cases term with
  | br target =>
    cases h
    exact List.mem_cons_self
  | condBr q x y =>
    obtain ⟨k, -, h⟩ := except_bind_ok.1 h
    cases h
    by_cases hk : k = 1
    · rw [if_pos hk]
      exact List.mem_cons_self
    · rw [if_neg hk]
      exact List.mem_cons_of_mem _ List.mem_cons_self
  | switch w q cases default =>
    obtain ⟨k, -, h⟩ := except_bind_ok.1 h
    cases h
    cases hk : cases.lookup k with
    | none => exact List.mem_cons_self
    | some t =>
      obtain ⟨pre, post, hsplit, -⟩ := List.lookup_eq_some_iff.1 hk
      refine List.mem_cons_of_mem _ (List.mem_map.2 ⟨(k, t), ?_, rfl⟩)
      rw [hsplit]
      exact List.mem_append_right _ List.mem_cons_self
  | ret v => cases h

theorem IrFunction.WellFormed.term_usable (hf : f.WellFormed) (hb : b ∈ f.visitOrder)
    (hblk : f.blocks[b]? = some blk) (hv : v ∈ blk.term.operands) :
    f.Usable b (blk.phis.map IrPhi.id ++ blk.body.map Prod.fst) v := by
  constructor
  · rintro j rfl
    exact hf.term b blk hblk j hv
  · rintro k rfl
    exact (f.mem_shadowArgs k).2 ⟨b, hb, blk, hblk, .inl (List.mem_append_right _ hv)⟩

theorem Carries.terminator (h : Carries f b blk blk.body l g c) (hf : f.WellFormed)
    (hb : b ∈ f.visitOrder) (hblk : f.blocks[b]? = some blk) (ht : blk.term.target l = .ok t) :
    execCodes R host callers [] c s (TaintVisitor.visitTerminator f.shadow blk.term) = (do
      let S ← blk.term.traced R (⟨f.name, b, none⟩ :: callers) s.memory.mem l g s.labels
      return ({ c with rest := [] }, s.withLabels S)) := by
  have hsite : (⟨f.name, b, none⟩ : TraceSite) = ⟨c.func.name, c.block, none⟩ := by
    rw [h.func, h.block]
    rfl
  have huse := fun v => hf.term_usable (v := v) hb hblk
  unfold IrTerm.traced
  cases hterm : blk.term with
  | br target => rfl
  | ret v =>
    rw [hterm] at ht
    cases ht
  | condBr q x y =>
    have hq := h.eval_shadow (huse q (by rw [hterm]; exact List.mem_cons_self))
    rw [hterm] at ht
    obtain ⟨k, hk, -⟩ := except_bind_ok.1 ht
    have hk := defined_ok.1 hk
    simp only [TaintVisitor.visitTerminator, TaintVisitor.visitCondition, IrTerm.traceCalls, hk,
      defined_some_bind]
    by_cases hz : f.shadow q = .zero
    · rw [hz] at hq
      rw [if_pos hz]
      simp only [pure, Except.pure, except_ok_bind, List.foldlM_cons, List.foldlM_nil]
      rw [LabelStore.trace_unlabelled _ _ (eval_zero hq)]
      rfl
    · rw [if_neg hz, execCodes_cons]
      have hk' : c.locals.read 1 q = some k := h.locals ▸ hk
      simp only [execCode, hk', hq, defined_some_bind, pure, Except.pure, except_ok_bind,
        List.foldlM_cons, List.foldlM_nil, hsite]
      cases s.labels.trace R s.memory.mem _ <;> rfl
  | switch w q cases default =>
    have hq := h.eval_shadow (huse q (by rw [hterm]; exact List.mem_cons_self))
    rw [hterm] at ht
    obtain ⟨x, hx, -⟩ := except_bind_ok.1 ht
    have hx := defined_ok.1 hx
    simp only [TaintVisitor.visitTerminator, TaintVisitor.visitSwitchInst, IrTerm.traceCalls, hx,
      defined_some_bind]
    by_cases hz : f.shadow q = .zero
    · rw [hz] at hq
      rw [if_pos hz]
      simp only [pure, Except.pure, except_ok_bind]
      rw [foldlM_trace_unlabelled]
      · rfl
      · intro call hcall
        obtain ⟨y, -, rfl⟩ := List.mem_map.1 hcall
        exact eval_zero hq
    · rw [if_neg hz]
      exact execCodes_traceCmp hsite hq (h.locals ▸ hx) cases.zipIdx

theorem Carries.terminator_undefined (h : Carries f b blk blk.body l g c) (hf : f.WellFormed)
    (hb : b ∈ f.visitOrder) (hblk : f.blocks[b]? = some blk) (hret : ∀ v, blk.term ≠ .ret v)
    (ht : blk.term.target l = .error e) (R : Reaction σ) (host : IrHost)
    (callers : List TraceSite) (s : CodeStore σ) :
    e = .undefined ∧ blk.term.traced R (⟨f.name, b, none⟩ :: callers) s.memory.mem l g s.labels =
        .error .undefined ∧
      (execCodes R host callers [] c s (TaintVisitor.visitTerminator f.shadow blk.term) =
          .error .undefined ∨
        execCodes R host callers [] c s (TaintVisitor.visitTerminator f.shadow blk.term) =
          .ok ({ c with rest := [] }, s)) := by
  have huse := fun v => hf.term_usable (v := v) hb hblk
  unfold IrTerm.traced
  cases hterm : blk.term with
  | br target =>
    rw [hterm] at ht
    cases ht
  | ret v => exact absurd hterm (hret v)
  | condBr q x y =>
    have hq := h.eval_shadow (huse q (by rw [hterm]; exact List.mem_cons_self))
    rw [hterm, IrTerm.target] at ht
    cases hk : l.read 1 q with
    | some k =>
      rw [hk] at ht
      cases ht
    | none =>
      rw [hk] at ht
      cases ht
      refine ⟨rfl, by rw [IrTerm.traceCalls, hk]; rfl, ?_⟩
      simp only [TaintVisitor.visitTerminator, TaintVisitor.visitCondition]
      by_cases hz : f.shadow q = .zero
      · rw [if_pos hz]
        exact .inr rfl
      · rw [if_neg hz, execCodes_cons]
        simp only [execCode, h.locals, hk, hq, defined_some_bind, defined_none_bind]
        exact .inl rfl
  | switch w q cases default =>
    have hq := h.eval_shadow (huse q (by rw [hterm]; exact List.mem_cons_self))
    rw [hterm, IrTerm.target] at ht
    cases hk : l.read w q with
    | some k =>
      rw [hk] at ht
      cases ht
    | none =>
      rw [hk] at ht
      cases ht
      refine ⟨rfl, by rw [IrTerm.traceCalls, hk]; rfl, ?_⟩
      simp only [TaintVisitor.visitTerminator, TaintVisitor.visitSwitchInst]
      by_cases hz : f.shadow q = .zero
      · rw [if_pos hz]
        exact .inr rfl
      · rw [if_neg hz]
        cases cases with
        | nil => exact .inr rfl
        | cons y ys =>
          rw [List.zipIdx_cons, List.map_cons, execCodes_cons]
          simp only [execCode, h.locals, hk, hq, defined_some_bind, defined_none_bind]
          exact .inl rfl

end

end Kirenenko
