import Kirenenko.Pass.Instrumented

namespace Kirenenko
set_option autoImplicit true

def IrFunction.defsOf (f : IrFunction) (b : Nat) : List Nat :=
  (f.blocks[b]?).elim [] IrBlock.defs

/-- The results that are defined at a place of block `b`: those of the blocks that dominate it, and
the given ones of the block itself. -/
def IrFunction.Available (f : IrFunction) (b : Nat) (done : List Nat) (id : Nat) : Prop :=
  (∃ d, StrictlyDominates f.successors 0 d b ∧ id ∈ f.defsOf d) ∨ id ∈ done

/-- What the verifier of LLVM demands: every result is defined once, and before its uses on every
path. A call passes no more arguments than `__dfsan_arg_tls` has room for. -/
structure IrFunction.WellFormed (f : IrFunction) : Prop where
  unique : (f.blocks.flatMap IrBlock.defs).Nodup
  entry : ∀ b, 0 ∉ f.successors b
  entryPhis : ∀ blk, f.blocks[0]? = some blk → blk.phis = []
  operands : ∀ b blk, f.blocks[b]? = some blk → ∀ pre id i post,
    blk.body = pre ++ (id, i) :: post → ∀ j, .inst j ∈ i.operands →
      f.Available b (blk.phis.map IrPhi.id ++ pre.map Prod.fst) j
  term : ∀ b blk, f.blocks[b]? = some blk → ∀ j, .inst j ∈ blk.term.operands →
    f.Available b blk.defs j
  phis : ∀ b blk, f.blocks[b]? = some blk → ∀ φ ∈ blk.phis, ∀ p j, (p, .inst j) ∈ φ.incoming →
    b ∈ f.successors p → f.Available p (f.defsOf p) j
  args : ∀ (b : Nat) (blk : IrBlock), f.blocks[b]? = some blk → ∀ id callee args ret,
    (id, IrInst.call callee args ret) ∈ blk.body → args.length ≤ argTlsSize
  params : ∀ (b : Nat) (blk : IrBlock), f.blocks[b]? = some blk → ∀ k,
    .arg k ∈ blk.operands → k < f.params

/-- A use of a parameter, or of a result defined before in its block or in the entry block. -/
def IrFunction.usesBefore (f : IrFunction) (b : Nat) (done : List Nat) : IrValue → Bool
  | .const _ => true
  | .arg k => k < f.params
  | .inst j => j ∈ done || (b ≠ 0 && decide (j ∈ f.defsOf 0))

def IrInst.fitsArgTls : IrInst → Bool
  | .call _ args _ => args.length ≤ argTlsSize
  | _ => true

def IrFunction.checkBody (f : IrFunction) (b : Nat) : List Nat → List (Nat × IrInst) → Bool
  | _, [] => true
  | done, (id, i) :: rest =>
    i.operands.all (f.usesBefore b done) && i.fitsArgTls && f.checkBody b (done ++ [id]) rest

/-- A check that unoptimised code passes, where only allocas of the entry block are used in other
blocks. -/
def IrFunction.check (f : IrFunction) : Bool :=
  decide (f.blocks.flatMap IrBlock.defs).Nodup &&
  (f.blocks.all fun blk => 0 ∉ blk.term.successors) &&
  (f.blocks[0]?).all (fun blk => blk.phis.isEmpty) &&
  f.blocks.zipIdx.all fun x =>
    f.checkBody x.2 (x.1.phis.map IrPhi.id) x.1.body &&
    x.1.term.operands.all (f.usesBefore x.2 x.1.defs) &&
    x.1.phis.all fun φ => φ.incoming.all fun y => f.usesBefore y.1 (f.defsOf y.1) y.2

theorem IrFunction.Available.of_usesBefore {f : IrFunction}
    (h : f.usesBefore b done (.inst j)) : f.Available b done j := by
  simp only [usesBefore, Bool.or_eq_true, Bool.and_eq_true, decide_eq_true_eq] at h
  rcases h with h | ⟨hb, hj⟩
  · exact .inr h
  · exact .inl ⟨0, .of_ne_entry hb, hj⟩

theorem IrFunction.checkBody_spec {f : IrFunction} {id : Nat} {body pre : List (Nat × IrInst)}
    (h : f.checkBody b done body) (hbody : body = pre ++ (id, i) :: post) :
    i.operands.all (f.usesBefore b (done ++ pre.map Prod.fst)) ∧ i.fitsArgTls := by
  induction pre generalizing body done with
  | nil =>
    subst hbody
    simp only [List.nil_append, checkBody, Bool.and_eq_true] at h
    rw [List.map_nil, List.append_nil]
    exact h.1
  | cons x pre ih =>
    subst hbody
    simp only [List.cons_append, checkBody, Bool.and_eq_true] at h
    have hrest := ih h.2 rfl
    rw [List.append_assoc] at hrest
    exact hrest

theorem IrFunction.WellFormed.of_check {f : IrFunction} (h : f.check) : f.WellFormed := by
  simp only [check, Bool.and_eq_true, decide_eq_true_eq] at h
  obtain ⟨⟨⟨hunique, hentry⟩, hphis⟩, hblocks⟩ := h
  have hblock : ∀ b blk, f.blocks[b]? = some blk →
      (f.checkBody b (blk.phis.map IrPhi.id) blk.body ∧
        blk.term.operands.all (f.usesBefore b blk.defs)) ∧
      blk.phis.all fun φ => φ.incoming.all fun y => f.usesBefore y.1 (f.defsOf y.1) y.2 := by
    intro b blk hb
    have hmem : (blk, b) ∈ f.blocks.zipIdx := List.mem_zipIdx_iff_getElem?.2 hb
    simpa only [Bool.and_eq_true] using List.all_eq_true.1 hblocks _ hmem
  refine ⟨hunique, ?_, ?_, ?_, ?_, ?_, ?_, ?_⟩
  · intro b hb
    unfold successors at hb
    cases hblk : f.blocks[b]? with
    | none =>
      rw [hblk] at hb
      cases hb
    | some blk =>
      rw [hblk] at hb
      have hnot := List.all_eq_true.1 hentry blk (List.mem_of_getElem? hblk)
      exact of_decide_eq_true hnot hb
  · intro blk hblk
    rw [hblk] at hphis
    exact List.isEmpty_iff.1 hphis
  · intro b blk hb pre id i post hbody j hj
    have huse := (checkBody_spec (hblock b blk hb).1.1 hbody).1
    exact .of_usesBefore (List.all_eq_true.1 huse _ hj)
  · intro b blk hb j hj
    exact .of_usesBefore (List.all_eq_true.1 (hblock b blk hb).1.2 _ hj)
  · intro b blk hb φ hφ p j hj _
    have hall := List.all_eq_true.1 (hblock b blk hb).2 φ hφ
    exact .of_usesBefore (List.all_eq_true.1 hall _ hj)
  · intro b blk hb id callee args ret hmem
    obtain ⟨pre, post, hbody⟩ := List.append_of_mem hmem
    exact of_decide_eq_true (checkBody_spec (hblock b blk hb).1.1 hbody).2
  · intro b blk hb k hk
    have huse : ∃ c done, f.usesBefore c done (.arg k) := by
      unfold IrBlock.operands at hk
      rcases List.mem_append.1 hk with hk | hk
      · rcases List.mem_append.1 hk with hk | hk
        · obtain ⟨φ, hφ, hk⟩ := List.mem_flatMap.1 hk
          obtain ⟨y, hy, he⟩ := List.mem_map.1 hk
          have hall := List.all_eq_true.1 (hblock b blk hb).2 φ hφ
          exact ⟨_, _, he ▸ List.all_eq_true.1 hall y hy⟩
        · obtain ⟨⟨id, i⟩, hx, hk⟩ := List.mem_flatMap.1 hk
          obtain ⟨pre, post, hbody⟩ := List.append_of_mem hx
          exact ⟨_, _, List.all_eq_true.1 (checkBody_spec (hblock b blk hb).1.1 hbody).1 _ hk⟩
      · exact ⟨_, _, List.all_eq_true.1 (hblock b blk hb).1.2 _ hk⟩
    obtain ⟨_, _, huse⟩ := huse
    exact of_decide_eq_true huse

theorem IrFunction.successors_outside (f : IrFunction) (h : b ∉ List.range f.blocks.length) :
    f.successors b = [] := by
  rw [List.mem_range, Nat.not_lt] at h
  rw [successors, List.getElem?_eq_none h]
  rfl

/-- The pass visits every block that can be reached, once, and after all its dominators. -/
theorem IrFunction.visitOrder_spec (f : IrFunction) :
    f.visitOrder.Nodup ∧ Rooted f.successors 0 f.visitOrder ∧ 0 ∈ f.visitOrder ∧
      ∀ b ∈ f.visitOrder, ∀ c ∈ f.successors b, c ∈ f.visitOrder := by
  have hfuel : [0].length + pendingEdges f.successors [] (List.range f.blocks.length) ≤
      1 + pendingEdges f.successors [] (List.range f.blocks.length) := Nat.le_refl _
  have hclosed := depthFirst_closed List.nodup_range (fun b => f.successors_outside) hfuel
    (fun b hb => by cases hb)
  refine ⟨depthFirst_nodup .nil, depthFirst_rooted .nil ?_, ?_, hclosed.2.2⟩
  · intro b hb
    exact .inl (List.mem_singleton.1 hb)
  · exact hclosed.1 0 List.mem_cons_self

/-- All results in the order in which the pass comes to them. -/
def IrFunction.visitIds (f : IrFunction) : List Nat := f.visitOrder.flatMap f.defsOf

theorem IrFunction.defsOf_eq {f : IrFunction} (h : f.blocks[b]? = some blk) :
    f.defsOf b = blk.defs := by
  rw [defsOf, h]
  rfl

section
variable {f : IrFunction} {b c id j : Nat}

theorem flatMap_range_defs (blocks : List IrBlock) :
    (List.range blocks.length).flatMap (fun b => (blocks[b]?).elim [] IrBlock.defs) =
      blocks.flatMap IrBlock.defs := by
  induction blocks using List.reverseRecOn with
  | nil => rfl
  | append_singleton blocks blk ih =>
    rw [List.length_append, List.length_singleton, List.range_succ, List.flatMap_append,
      List.flatMap_append, List.flatMap_singleton, List.flatMap_singleton, ← ih]
    congr 1
    · apply List.flatMap_congr
      intro b hb
      rw [List.getElem?_append_left (List.mem_range.1 hb)]
    · rw [List.getElem?_append_right (Nat.le_refl _), Nat.sub_self]
      rfl

theorem IrFunction.WellFormed.block_unique (h : f.WellFormed) (hb : id ∈ f.defsOf b)
    (hc : id ∈ f.defsOf c) : b = c := by
  have hrange : ∀ d, id ∈ f.defsOf d → d ∈ List.range f.blocks.length := by
    intro d hd
    by_contra hn
    rw [List.mem_range, Nat.not_lt] at hn
    rw [defsOf, List.getElem?_eq_none hn] at hd
    cases hd
  have hnodup : ((List.range f.blocks.length).flatMap f.defsOf).Nodup :=
    (flatMap_range_defs f.blocks).symm ▸ h.unique
  rw [List.nodup_flatMap] at hnodup
  by_contra hne
  have hsymm : Std.Symm (Function.onFun List.Disjoint f.defsOf) := ⟨fun _ _ hd => hd.symm⟩
  exact hnodup.2.forall (hrange b hb) (hrange c hc) hne hb hc

theorem IrFunction.WellFormed.defs_nodup (h : f.WellFormed) (b : Nat) : (f.defsOf b).Nodup := by
  cases hb : f.blocks[b]? with
  | none =>
    rw [defsOf, hb]
    exact .nil
  | some blk =>
    rw [f.defsOf_eq hb]
    exact (List.nodup_flatMap.1 h.unique).1 blk (List.mem_of_getElem? hb)

theorem IrFunction.WellFormed.ids_nodup (h : f.WellFormed) : f.visitIds.Nodup := by
  rw [visitIds, List.nodup_flatMap]
  refine ⟨fun b _ => h.defs_nodup b, ?_⟩
  refine List.Pairwise.imp ?_ f.visitOrder_spec.1
  intro b c hne id hb hc
  exact hne (h.block_unique hb hc)

theorem IrFunction.Available.visited (h : f.Available b done j)
    (ho : f.visitOrder = pre ++ b :: post) : j ∈ pre.flatMap f.defsOf ++ done := by
  rcases h with ⟨d, hd, hj⟩ | hj
  · apply List.mem_append_left
    exact List.mem_flatMap.2 ⟨d, f.visitOrder_spec.2.1.dominator_before ho hd, hj⟩
  · exact List.mem_append_right _ hj

namespace TaintFunction

theorem shadow_demand (TF : TaintFunction) (v : IrValue) : (TF.demand v).shadow = TF.shadow := by
  funext u
  cases v with
  | const v => rfl
  | arg i =>
    rw [demand]
    by_cases hi : i ∈ TF.args
    · rw [if_pos hi]
    · rw [if_neg hi]
      cases u <;> rfl
  | inst id =>
    cases u with
    | const v => rfl
    | arg i => rfl
    | inst j =>
      change ((Function.update TF.valShadowMap id _) j).getD .zero = _
      by_cases hj : j = id
      · subst hj
        rw [Function.update_self]
        rfl
      · rw [Function.update_of_ne hj]
        rfl

theorem shadow_demandAll (TF : TaintFunction) (vs : List IrValue) :
    (TF.demandAll vs).shadow = TF.shadow := by
  induction vs generalizing TF with
  | nil => rfl
  | cons v vs ih => exact (ih (TF.demand v)).trans (TF.shadow_demand v)

theorem shadow_noteAlloca (TF : TaintFunction) (f : IrFunction) (id : Nat) (i : IrInst) :
    (TF.noteAlloca f id i).shadow = TF.shadow := by
  cases i with
  | alloca w =>
    rw [noteAlloca]
    by_cases h : f.allLoadsStores id
    · rw [if_pos h]
      funext u
      cases u <;> rfl
    · rw [if_neg h]
  | _ => rfl

theorem shadow_setShadow_self (TF : TaintFunction) (id : Nat) (s : Shadow) :
    (TF.setShadow id s).shadow (.inst id) = s := by
  change ((Function.update TF.valShadowMap id (some s)) id).getD .zero = s
  rw [Function.update_self]
  rfl

theorem shadow_setShadow_of_ne (TF : TaintFunction) (s : Shadow) (h : j ≠ id) :
    (TF.setShadow id s).shadow (.inst j) = TF.shadow (.inst j) := by
  change ((Function.update TF.valShadowMap id (some s)) j).getD .zero = _
  rw [Function.update_of_ne h]
  rfl

/-- The allocas that have a shadow of their own when an instruction is instrumented. -/
def slotsAt (TF : TaintFunction) (f : IrFunction) (id : Nat) (i : IrInst) : List Nat :=
  (TF.noteAlloca f id i).allocaShadowMap

theorem allocas_demand (TF : TaintFunction) (v : IrValue) :
    (TF.demand v).allocaShadowMap = TF.allocaShadowMap := by
  cases v with
  | const v => rfl
  | inst id => rfl
  | arg i =>
    rw [demand]
    split <;> rfl

theorem allocas_demandAll (TF : TaintFunction) (vs : List IrValue) :
    (TF.demandAll vs).allocaShadowMap = TF.allocaShadowMap := by
  induction vs generalizing TF with
  | nil => rfl
  | cons v vs ih => exact (ih (TF.demand v)).trans (TF.allocas_demand v)

theorem slotsAt_demandAll (TF : TaintFunction) (f : IrFunction) (id : Nat) (i : IrInst)
    (vs : List IrValue) : (TF.demandAll vs).slotsAt f id i = TF.slotsAt f id i := by
  unfold slotsAt
  cases i with
  | alloca w =>
    rw [noteAlloca, noteAlloca]
    by_cases h : f.allLoadsStores id
    · rw [if_pos h, if_pos h]
      exact congrArg (id :: ·) (TF.allocas_demandAll vs)
    · rw [if_neg h, if_neg h]
      exact TF.allocas_demandAll vs
  | _ => exact TF.allocas_demandAll vs

theorem visit_code (TF : TaintFunction) (f : IrFunction) (id : Nat) (i : IrInst) :
    (TF.visit f id i).1 = (TaintVisitor.visitInst TF.shadow (TF.slotsAt f id i) id i).1 := by
  have hsh := ((TF.demandAll i.shadowOperands).shadow_noteAlloca f id i).trans
    (TF.shadow_demandAll i.shadowOperands)
  have hslots := TF.slotsAt_demandAll f id i i.shadowOperands
  unfold slotsAt at hslots
  simp only [visit, hsh, hslots, slotsAt]

theorem visit_shadow_self (TF : TaintFunction) (f : IrFunction) (id : Nat) (i : IrInst) :
    (TF.visit f id i).2.shadow (.inst id) =
      (TaintVisitor.visitInst TF.shadow (TF.slotsAt f id i) id i).2.getD
        (TF.shadow (.inst id)) := by
  have hsh := ((TF.demandAll i.shadowOperands).shadow_noteAlloca f id i).trans
    (TF.shadow_demandAll i.shadowOperands)
  have hslots := TF.slotsAt_demandAll f id i i.shadowOperands
  unfold slotsAt at hslots
  simp only [visit, hsh, hslots, slotsAt]
  cases (TaintVisitor.visitInst TF.shadow (TF.noteAlloca f id i).allocaShadowMap id i).2 with
  | none => exact congrFun hsh _
  | some s => exact shadow_setShadow_self _ _ _

theorem visit_shadow_of_ne (TF : TaintFunction) (f : IrFunction) (i : IrInst) (h : j ≠ id) :
    (TF.visit f id i).2.shadow (.inst j) = TF.shadow (.inst j) := by
  have hsh := ((TF.demandAll i.shadowOperands).shadow_noteAlloca f id i).trans
    (TF.shadow_demandAll i.shadowOperands)
  unfold visit
  dsimp only
  cases (TaintVisitor.visitInst _ _ id i).2 with
  | none => exact congrFun hsh _
  | some s => exact (shadow_setShadow_of_ne _ _ h).trans (congrFun hsh _)

theorem visitPHIs_shadow (TF : TaintFunction) (phis : List IrPhi) (j : Nat) :
    (phis.foldl visitPHINode TF).shadow (.inst j) =
      if j ∈ phis.map IrPhi.id then .inst j else TF.shadow (.inst j) := by
  induction phis generalizing TF with
  | nil => rfl
  | cons φ phis ih =>
    rw [List.foldl_cons, ih]
    by_cases hj : j ∈ phis.map IrPhi.id
    · rw [if_pos hj, List.map_cons, if_pos (List.mem_cons_of_mem _ hj)]
    · rw [if_neg hj, List.map_cons]
      by_cases he : j = φ.id
      · subst he
        rw [if_pos List.mem_cons_self]
        exact shadow_setShadow_self _ _ _
      · rw [if_neg (by rw [List.mem_cons]; exact not_or.2 ⟨he, hj⟩)]
        exact shadow_setShadow_of_ne _ _ he

theorem visitBody_shadow (TF : TaintFunction) (f : IrFunction) (body : List (Nat × IrInst))
    (hj : j ∉ body.map Prod.fst) :
    (visitBody f TF body).2.shadow (.inst j) = TF.shadow (.inst j) := by
  induction body generalizing TF with
  | nil => rfl
  | cons x body ih =>
    obtain ⟨hne, hj⟩ := not_or.1 (fun h => hj (List.mem_cons.2 h))
    exact (ih _ hj).trans (TF.visit_shadow_of_ne f x.2 hne)

theorem visitBlock_shadow (TF : TaintFunction) (f : IrFunction) (blk : IrBlock)
    (hj : j ∉ blk.defs) : (TF.visitBlock f blk).2.shadow (.inst j) = TF.shadow (.inst j) := by
  obtain ⟨hp, hb⟩ := not_or.1 (fun h => hj (List.mem_append.2 h))
  calc (TF.visitBlock f blk).2.shadow (.inst j)
      = (visitBody f (blk.phis.foldl visitPHINode TF) blk.body).2.shadow (.inst j) :=
        congrFun (shadow_demandAll _ _) _
    _ = (blk.phis.foldl visitPHINode TF).shadow (.inst j) := visitBody_shadow _ f _ hb
    _ = TF.shadow (.inst j) := by rw [visitPHIs_shadow, if_neg hp]

theorem visitBlocks_none (TF : TaintFunction) (h : f.blocks[b]? = none) (bs : List Nat) :
    visitBlocks f TF (b :: bs) = visitBlocks f TF bs := by
  rw [visitBlocks, h]

theorem visitBlocks_some (TF : TaintFunction) (h : f.blocks[b]? = some blk) (bs : List Nat) :
    visitBlocks f TF (b :: bs) =
      ((b, (TF.visitBlock f blk).1) :: (visitBlocks f (TF.visitBlock f blk).2 bs).1,
        (visitBlocks f (TF.visitBlock f blk).2 bs).2) := by
  rw [visitBlocks, h]

theorem visitBlocks_shadow (TF : TaintFunction) (f : IrFunction) (order : List Nat)
    (hj : j ∉ order.flatMap f.defsOf) :
    (visitBlocks f TF order).2.shadow (.inst j) = TF.shadow (.inst j) := by
  induction order generalizing TF with
  | nil => rfl
  | cons b order ih =>
    rw [List.flatMap_cons] at hj
    obtain ⟨hb, hj⟩ := not_or.1 (fun h => hj (List.mem_append.2 h))
    cases hblk : f.blocks[b]? with
    | none =>
      rw [visitBlocks_none TF hblk]
      exact ih TF hj
    | some blk =>
      rw [f.defsOf_eq hblk] at hb
      rw [visitBlocks_some TF hblk]
      exact (ih _ hj).trans (TF.visitBlock_shadow f blk hb)

theorem visitBlocks_append (TF : TaintFunction) (f : IrFunction) (pre post : List Nat) :
    (visitBlocks f TF (pre ++ post)).1 =
        (visitBlocks f TF pre).1 ++ (visitBlocks f (visitBlocks f TF pre).2 post).1 ∧
      (visitBlocks f TF (pre ++ post)).2 = (visitBlocks f (visitBlocks f TF pre).2 post).2 := by
  induction pre generalizing TF with
  | nil => exact ⟨rfl, rfl⟩
  | cons b pre ih =>
    rw [List.cons_append]
    cases hblk : f.blocks[b]? with
    | none =>
      rw [visitBlocks_none TF hblk, visitBlocks_none TF hblk]
      exact ih TF
    | some blk =>
      rw [visitBlocks_some TF hblk, visitBlocks_some TF hblk]
      obtain ⟨h1, h2⟩ := ih (TF.visitBlock f blk).2
      exact ⟨congrArg ((b, (TF.visitBlock f blk).1) :: ·) h1, h2⟩

theorem visitBlocks_lookup (TF : TaintFunction) (f : IrFunction) (order : List Nat)
    (hb : b ∉ order) : (visitBlocks f TF order).1.lookup b = none := by
  induction order generalizing TF with
  | nil => rfl
  | cons c order ih =>
    obtain ⟨hne, hb⟩ := not_or.1 (fun h => hb (List.mem_cons.2 h))
    cases hblk : f.blocks[c]? with
    | none =>
      rw [visitBlocks_none TF hblk]
      exact ih TF hb
    | some blk =>
      rw [visitBlocks_some TF hblk]
      refine (List.lookup_cons ..).trans ?_
      rw [beq_false_of_ne hne]
      exact ih _ hb

theorem visitBody_append (TF : TaintFunction) (f : IrFunction) (pre post : List (Nat × IrInst)) :
    (visitBody f TF (pre ++ post)).1 =
        (visitBody f TF pre).1 ++ (visitBody f (visitBody f TF pre).2 post).1 ∧
      (visitBody f TF (pre ++ post)).2 = (visitBody f (visitBody f TF pre).2 post).2 := by
  induction pre generalizing TF with
  | nil => exact ⟨rfl, rfl⟩
  | cons x pre ih =>
    obtain ⟨h1, h2⟩ := ih (TF.visit f x.1 x.2).2
    refine ⟨?_, h2⟩
    change (TF.visit f x.1 x.2).1 ++ (visitBody f (TF.visit f x.1 x.2).2 (pre ++ post)).1 = _
    rw [h1, ← List.append_assoc]
    rfl

end TaintFunction

end

end Kirenenko
