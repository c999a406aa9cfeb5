import Kirenenko.Pass.VisitOrder

namespace Kirenenko
set_option autoImplicit true

section
variable {f : IrFunction} {b c id j : Nat}

namespace TaintFunction

/-- The allocas with a shadow of their own are the promoted ones among those visited. -/
def SlotsFor (f : IrFunction) (TF : TaintFunction) (ids : List Nat) : Prop :=
  ∀ a, a ∈ TF.allocaShadowMap ↔ a ∈ ids ∧ a ∈ f.promoted

theorem mem_slotsAt (TF : TaintFunction) (f : IrFunction) (id : Nat) (i : IrInst) (a : Nat) :
    a ∈ TF.slotsAt f id i ↔
      a ∈ TF.allocaShadowMap ∨ a = id ∧ (∃ w, i = .alloca w) ∧ f.allLoadsStores id := by
  unfold slotsAt
  cases i with
  | alloca w =>
    rw [noteAlloca]
    by_cases h : f.allLoadsStores id
    · rw [if_pos h, List.mem_cons, or_comm]
      simp [h]
    · rw [if_neg h]
      simp [h]
  | _ => simp [noteAlloca]

theorem visit_allocas (TF : TaintFunction) (f : IrFunction) (id : Nat) (i : IrInst) :
    (TF.visit f id i).2.allocaShadowMap = TF.slotsAt f id i := by
  rw [← TF.slotsAt_demandAll f id i i.shadowOperands]
  unfold visit slotsAt
  dsimp only
  cases (TaintVisitor.visitInst _ _ id i).2 <;> rfl

theorem visitPHIs_allocas (TF : TaintFunction) (phis : List IrPhi) :
    (phis.foldl visitPHINode TF).allocaShadowMap = TF.allocaShadowMap := by
  induction phis generalizing TF with
  | nil => rfl
  | cons φ phis ih => exact ih _

end TaintFunction

theorem IrFunction.mem_promoted {a : Nat} : a ∈ f.promoted ↔
    (∃ blk ∈ f.blocks, ∃ w, (a, .alloca w) ∈ blk.body) ∧ f.allLoadsStores a := by
  unfold promoted
  rw [List.mem_filter, List.mem_flatMap]
  refine and_congr_left fun _ => exists_congr fun blk => and_congr_right fun _ => ?_
  rw [List.mem_filterMap]
  constructor
  · rintro ⟨⟨id, i⟩, hx, he⟩
    cases i with
    | alloca w =>
      cases he
      exact ⟨w, hx⟩
    | _ => cases he
  · rintro ⟨w, hx⟩
    exact ⟨_, hx, rfl⟩

theorem IrFunction.WellFormed.body_nodup (h : f.WellFormed) (hb : f.blocks[b]? = some blk) :
    blk.defs.Nodup := by
  rw [← f.defsOf_eq hb]
  exact h.defs_nodup b

theorem IrFunction.WellFormed.promoted_iff (h : f.WellFormed) (hb : f.blocks[b]? = some blk)
    (hi : (id, i) ∈ blk.body) :
    id ∈ f.promoted ↔ (∃ w, i = .alloca w) ∧ f.allLoadsStores id := by
  rw [mem_promoted]
  refine and_congr_left fun _ => ⟨?_, ?_⟩
  · rintro ⟨blk', hblk', w, hw⟩
    obtain ⟨c, hc⟩ := List.mem_iff_getElem?.1 hblk'
    have hid : id ∈ f.defsOf b := by
      rw [f.defsOf_eq hb]
      exact List.mem_append_right _ (List.mem_map.2 ⟨_, hi, rfl⟩)
    have hid' : id ∈ f.defsOf c := by
      rw [f.defsOf_eq hc]
      exact List.mem_append_right _ (List.mem_map.2 ⟨_, hw, rfl⟩)
    cases h.block_unique hid hid'
    cases hb.symm.trans hc
    have hnodup := (List.nodup_append.1 (h.body_nodup hb)).2.1
    exact ⟨w, congrArg Prod.snd (List.inj_on_of_nodup_map hnodup hi hw rfl)⟩
  · rintro ⟨w, rfl⟩
    exact ⟨blk, List.mem_of_getElem? hb, w, hi⟩

theorem IrFunction.WellFormed.phi_not_promoted (h : f.WellFormed) (hb : f.blocks[b]? = some blk)
    (hid : id ∈ blk.phis.map IrPhi.id) : id ∉ f.promoted := by
  intro hp
  obtain ⟨⟨blk', hblk', w, hw⟩, -⟩ := mem_promoted.1 hp
  obtain ⟨c, hc⟩ := List.mem_iff_getElem?.1 hblk'
  have hid' : id ∈ blk'.body.map Prod.fst := List.mem_map.2 ⟨_, hw, rfl⟩
  have hdb : id ∈ f.defsOf b := by
    rw [f.defsOf_eq hb]
    exact List.mem_append_left _ hid
  have hdc : id ∈ f.defsOf c := by
    rw [f.defsOf_eq hc]
    exact List.mem_append_right _ hid'
  cases h.block_unique hdb hdc
  cases hb.symm.trans hc
  exact (List.nodup_append.1 (h.body_nodup hb)).2.2 id hid id hid' rfl

namespace TaintFunction

theorem SlotsFor.visit (hs : SlotsFor f TF ids) (h : f.WellFormed) (hb : f.blocks[b]? = some blk)
    (hi : (id, i) ∈ blk.body) : SlotsFor f (TF.visit f id i).2 (ids ++ [id]) := by
  intro a
  rw [visit_allocas, mem_slotsAt, hs a, List.mem_append, List.mem_singleton, or_and_right]
  refine or_congr_right (and_congr_right ?_)
  rintro rfl
  exact (h.promoted_iff hb hi).symm

theorem SlotsFor.phis (hs : SlotsFor f TF ids) (h : f.WellFormed) (hb : f.blocks[b]? = some blk) :
    SlotsFor f (blk.phis.foldl visitPHINode TF) (ids ++ blk.phis.map IrPhi.id) := by
  intro a
  rw [visitPHIs_allocas, hs a, List.mem_append, or_and_right]
  refine ⟨.inl, fun ha => ha.resolve_right ?_⟩
  rintro ⟨hp, ha⟩
  exact h.phi_not_promoted hb hp ha

theorem SlotsFor.body {body : List (Nat × IrInst)} (hs : SlotsFor f TF ids) (h : f.WellFormed)
    (hb : f.blocks[b]? = some blk) (hbody : ∀ x ∈ body, x ∈ blk.body) :
    SlotsFor f (visitBody f TF body).2 (ids ++ body.map Prod.fst) := by
  induction body generalizing TF ids with
  | nil =>
    rw [List.map_nil, List.append_nil]
    exact hs
  | cons x body ih =>
    have hx := hs.visit h hb (hbody x List.mem_cons_self)
    have hrest := ih hx fun y hy => hbody y (List.mem_cons_of_mem _ hy)
    rw [List.append_assoc] at hrest
    exact hrest

theorem SlotsFor.block (hs : SlotsFor f TF ids) (h : f.WellFormed) (hb : f.blocks[b]? = some blk) :
    SlotsFor f (TF.visitBlock f blk).2 (ids ++ blk.defs) := by
  have hbody := SlotsFor.body (hs.phis h hb) h hb fun x hx => hx
  rw [List.append_assoc] at hbody
  intro a
  exact (iff_of_eq (congrArg (a ∈ ·) (allocas_demandAll _ _))).trans (hbody a)

theorem SlotsFor.blocks (hs : SlotsFor f TF ids) (h : f.WellFormed) (order : List Nat) :
    SlotsFor f (visitBlocks f TF order).2 (ids ++ order.flatMap f.defsOf) := by
  induction order generalizing TF ids with
  | nil =>
    rw [List.flatMap_nil, List.append_nil]
    exact hs
  | cons b order ih =>
    rw [List.flatMap_cons]
    cases hb : f.blocks[b]? with
    | none =>
      rw [visitBlocks_none TF hb, IrFunction.defsOf, hb]
      exact ih hs
    | some blk =>
      rw [visitBlocks_some TF hb, f.defsOf_eq hb, ← List.append_assoc]
      exact ih (hs.block h hb)

theorem SlotsFor.initial (f : IrFunction) : SlotsFor f .initial [] := by
  intro a
  exact ⟨fun h => (by cases h), fun h => (by cases h.1)⟩

/-- The state of the pass in the middle of a block. -/
def atPlace (f : IrFunction) (before : List Nat) (blk : IrBlock) (done : List (Nat × IrInst)) :
    TaintFunction :=
  (visitBody f (blk.phis.foldl visitPHINode (visitBlocks f .initial before).2) done).2

end TaintFunction

/-- A place in the body of a block that the pass visits. -/
structure IrFunction.Place (f : IrFunction) (before : List Nat) (b : Nat) (after : List Nat)
    (blk : IrBlock) (done rest : List (Nat × IrInst)) : Prop where
  order : f.visitOrder = before ++ b :: after
  block : f.blocks[b]? = some blk
  body : blk.body = done ++ rest

section
variable {before after : List Nat} {blk : IrBlock} {done rest : List (Nat × IrInst)}

/-- What has been visited when the pass is at a place. -/
def visitedAt (f : IrFunction) (before : List Nat) (blk : IrBlock)
    (done : List (Nat × IrInst)) : List Nat :=
  before.flatMap f.defsOf ++ (blk.phis.map IrPhi.id ++ done.map Prod.fst)

theorem IrFunction.Place.ids (p : f.Place before b after blk done rest) :
    f.visitIds = visitedAt f before blk done ++ (rest.map Prod.fst ++ after.flatMap f.defsOf) := by
  unfold visitIds visitedAt
  rw [p.order, List.flatMap_append, List.flatMap_cons, f.defsOf_eq p.block, IrBlock.defs, p.body,
    List.map_append]
  simp only [List.append_assoc]

theorem IrFunction.Place.not_later (p : f.Place before b after blk done rest) (h : f.WellFormed)
    (hj : j ∈ visitedAt f before blk done) :
    j ∉ rest.map Prod.fst ∧ j ∉ after.flatMap f.defsOf := by
  have hnodup := h.ids_nodup
  rw [p.ids, List.nodup_append] at hnodup
  exact ⟨fun hr => hnodup.2.2 j hj j (List.mem_append_left _ hr) rfl,
    fun ha => hnodup.2.2 j hj j (List.mem_append_right _ ha) rfl⟩

theorem IrFunction.Place.visited_eq (p : f.Place before b after blk done rest) :
    f.visited.2 = (TaintFunction.visitBlocks f
      ((TaintFunction.visitBlocks f .initial before).2.visitBlock f blk).2 after).2 := by
  rw [IrFunction.visited, p.order, (TaintFunction.visitBlocks_append _ f before _).2,
    TaintFunction.visitBlocks_some _ p.block]

theorem IrFunction.Place.final (p : f.Place before b after blk done rest)
    (hr : j ∉ rest.map Prod.fst) (ha : j ∉ after.flatMap f.defsOf) :
    f.shadow (.inst j) = (TaintFunction.atPlace f before blk done).shadow (.inst j) := by
  unfold IrFunction.shadow TaintFunction.atPlace
  rw [p.visited_eq, TaintFunction.visitBlocks_shadow _ f after ha]
  unfold TaintFunction.visitBlock
  dsimp only
  rw [TaintFunction.shadow_demandAll, p.body, (TaintFunction.visitBody_append _ f done rest).2,
    TaintFunction.visitBody_shadow _ f rest hr]

theorem IrFunction.Place.unvisited (hj : j ∉ visitedAt f before blk done) :
    (TaintFunction.atPlace f before blk done).shadow (.inst j) = .zero := by
  unfold visitedAt at hj
  obtain ⟨hb, hj⟩ := not_or.1 fun h => hj (List.mem_append.2 h)
  obtain ⟨hp, hd⟩ := not_or.1 fun h => hj (List.mem_append.2 h)
  unfold TaintFunction.atPlace
  rw [TaintFunction.visitBody_shadow _ f done hd, TaintFunction.visitPHIs_shadow, if_neg hp,
    TaintFunction.visitBlocks_shadow _ f before hb]
  rfl

theorem IrFunction.Place.slots (p : f.Place before b after blk done rest) (h : f.WellFormed) :
    TaintFunction.SlotsFor f (TaintFunction.atPlace f before blk done)
      (visitedAt f before blk done) := by
  have hpre := (TaintFunction.SlotsFor.initial f).blocks h before
  rw [List.nil_append] at hpre
  have hbody : ∀ x ∈ done, x ∈ blk.body := by
    intro x hx
    rw [p.body]
    exact List.mem_append_left _ hx
  have hat := TaintFunction.SlotsFor.body (hpre.phis h p.block) h p.block hbody
  rw [List.append_assoc] at hat
  exact hat

end

theorem IrInst.shadowOperands_subset (i : IrInst) : ∀ v ∈ i.shadowOperands, v ∈ i.operands := by
  intro v hv
  cases i with
  | select w c a b =>
    simp only [shadowOperands, operands, List.mem_cons, List.not_mem_nil, or_false] at hv ⊢
    tauto
  | store w a p => exact List.mem_cons.2 (.inl (List.mem_singleton.1 hv))
  | memset d a n =>
    exact List.mem_cons_of_mem _ (List.mem_cons.2 (.inl (List.mem_singleton.1 hv)))
  | gep | alloca | load | memTransfer => cases hv
  | _ => exact hv

theorem variableOf_congr {slots slots' : List Nat} (ptr : IrValue)
    (h : ∀ a, ptr = .inst a → (a ∈ slots ↔ a ∈ slots')) :
    variableOf slots ptr = variableOf slots' ptr := by
  cases ptr with
  | inst a => simp only [variableOf, h a rfl]
  | _ => rfl

/-- The code of an instruction depends on the shadows of its operands, and on which of the allocas
it names have shadows of their own. -/
theorem TaintVisitor.visitInst_congr {sh sh' : IrValue → Shadow} {slots slots' : List Nat}
    {i : IrInst} (hsh : ∀ v ∈ i.shadowOperands, sh v = sh' v)
    (hslots : ∀ a, .inst a ∈ i.operands → (a ∈ slots ↔ a ∈ slots'))
    (hid : id ∈ slots ↔ id ∈ slots') :
    visitInst sh slots id i = visitInst sh' slots' id i := by
  cases i with
  | binary op w a b =>
    have ha := hsh a List.mem_cons_self
    have hb := hsh b (List.mem_cons_of_mem _ List.mem_cons_self)
    simp only [visitInst, visitBinaryOperator, ha, hb]
  | cast op w w' a =>
    have ha := hsh a List.mem_cons_self
    simp only [visitInst, visitCastInst, ha]
  | icmp p w a b =>
    have ha := hsh a List.mem_cons_self
    have hb := hsh b (List.mem_cons_of_mem _ List.mem_cons_self)
    simp only [visitInst, visitCmpInst, ha, hb]
  | select w c a b =>
    have ha := hsh a List.mem_cons_self
    have hb := hsh b (List.mem_cons_of_mem _ List.mem_cons_self)
    have hc := hsh c (List.mem_cons_of_mem _ (List.mem_cons_of_mem _ List.mem_cons_self))
    simp only [visitInst, visitSelectInst, ha, hb, hc]
  | gep base index scale => rfl
  | alloca w => simp only [visitInst, visitAllocaInst, hid]
  | load w ptr =>
    have hv := variableOf_congr ptr fun a he => hslots a (he ▸ List.mem_cons_self)
    simp only [visitInst, visitLoadInst, hv]
  | store w v ptr =>
    have hv := variableOf_congr ptr fun a he =>
      hslots a (he ▸ List.mem_cons_of_mem _ List.mem_cons_self)
    simp only [visitInst, visitStoreInst, hv, hsh v List.mem_cons_self]
  | memset dest v len => simp only [visitInst, visitMemSetInst, hsh v List.mem_cons_self]
  | memTransfer dest src len => rfl
  | pread buf count offset => rfl
  | call callee args ret =>
    have hargs : (args.zipIdx.map fun x => Code.storeArgTls x.2 (sh x.1.2)) =
        args.zipIdx.map fun x => Code.storeArgTls x.2 (sh' x.1.2) := by
      apply List.map_congr_left
      intro x hx
      have hmem : x.1 ∈ args := (List.mem_zipIdx' hx).2 ▸ List.getElem_mem _
      rw [hsh x.1.2 (List.mem_map.2 ⟨x.1, hmem, rfl⟩)]
    simp only [visitInst, visitCallSite, hargs]

/-- The code of a list of instructions, from the final shadows. -/
def IrFunction.bodyCode (f : IrFunction) (body : List (Nat × IrInst)) : List Code :=
  body.flatMap fun x => (TaintVisitor.visitInst f.shadow f.promoted x.1 x.2).1

/-- The code of a block, without the loads at the entry. -/
def IrFunction.blockCode (f : IrFunction) (blk : IrBlock) : List Code :=
  f.bodyCode blk.body ++ TaintVisitor.visitTerminator f.shadow blk.term

section
variable {before after : List Nat} {blk : IrBlock} {done rest : List (Nat × IrInst)} {i : IrInst}

/-- Where an operand is used, the pass already knows its final shadow. -/
theorem IrFunction.Place.shadow_eq (p : f.Place before b after blk done rest) (h : f.WellFormed)
    (hv : ∀ j, v = .inst j → f.Available b (blk.phis.map IrPhi.id ++ done.map Prod.fst) j) :
    (TaintFunction.atPlace f before blk done).shadow v = f.shadow v := by
  cases v with
  | const v => rfl
  | arg i => rfl
  | inst j =>
    obtain ⟨hr, ha⟩ := p.not_later h ((hv j rfl).visited p.order)
    exact (p.final hr ha).symm

/-- The pass instruments an instruction as it would if it knew all shadows beforehand. -/
theorem IrFunction.Place.visitInst_eq
    (p : f.Place before b after blk done ((id, i) :: rest)) (h : f.WellFormed) :
    TaintVisitor.visitInst (TaintFunction.atPlace f before blk done).shadow
        ((TaintFunction.atPlace f before blk done).slotsAt f id i) id i =
      TaintVisitor.visitInst f.shadow f.promoted id i := by
  have huse := h.operands b blk p.block done id i rest p.body
  have hown : (id, i) ∈ blk.body := by
    rw [p.body]
    exact List.mem_append_right _ List.mem_cons_self
  have hslots : ∀ a, a ∈ (TaintFunction.atPlace f before blk done).slotsAt f id i ↔
      a ∈ visitedAt f before blk done ∧ a ∈ f.promoted ∨ a = id ∧ id ∈ f.promoted := by
    intro a
    rw [TaintFunction.mem_slotsAt, p.slots h a, h.promoted_iff p.block hown]
  apply TaintVisitor.visitInst_congr
  · intro v hv
    refine p.shadow_eq h fun j hj => ?_
    subst hj
    exact huse j (i.shadowOperands_subset _ hv)
  · intro a ha
    have hvis : a ∈ visitedAt f before blk done := (huse a ha).visited p.order
    rw [hslots a]
    refine ⟨?_, fun hp => .inl ⟨hvis, hp⟩⟩
    rintro (hp | ⟨rfl, hp⟩)
    · exact hp.2
    · exact hp
  · rw [hslots id]
    exact ⟨fun hp => hp.elim And.right And.right, fun hp => .inr ⟨rfl, hp⟩⟩

theorem IrFunction.Place.next (p : f.Place before b after blk done ((id, i) :: rest)) :
    f.Place before b after blk (done ++ [(id, i)]) rest :=
  ⟨p.order, p.block, by rw [p.body, List.append_assoc]; rfl⟩

theorem TaintFunction.atPlace_snoc (f : IrFunction) (before : List Nat) (blk : IrBlock)
    (done : List (Nat × IrInst)) (id : Nat) (i : IrInst) :
    atPlace f before blk (done ++ [(id, i)]) = ((atPlace f before blk done).visit f id i).2 := by
  unfold atPlace
  rw [(visitBody_append _ f done _).2]
  rfl

theorem IrFunction.Place.visitBody_eq (p : f.Place before b after blk done rest)
    (h : f.WellFormed) :
    (TaintFunction.visitBody f (TaintFunction.atPlace f before blk done) rest).1 =
      f.bodyCode rest := by
  induction rest generalizing done with
  | nil => rfl
  | cons x rest ih =>
    have hcode := (TaintFunction.visit_code _ f x.1 x.2).trans
      (congrArg Prod.fst (p.visitInst_eq h))
    have hrest := ih p.next
    rw [TaintFunction.atPlace_snoc] at hrest
    exact congrArg₂ (· ++ ·) hcode hrest

theorem IrFunction.Place.shadow_inst (p : f.Place before b after blk done ((id, i) :: rest))
    (h : f.WellFormed) : f.shadow (.inst id) =
      ((TaintVisitor.visitInst f.shadow f.promoted id i).2).getD .zero := by
  have hnodup := h.ids_nodup
  rw [p.ids, List.nodup_append] at hnodup
  have hnew : id ∉ visitedAt f before blk done := fun hv =>
    hnodup.2.2 id hv id (List.mem_append_left _ List.mem_cons_self) rfl
  have hvis : id ∈ visitedAt f before blk (done ++ [(id, i)]) := by
    unfold visitedAt
    rw [List.map_append]
    exact List.mem_append_right _ (List.mem_append_right _
      (List.mem_append_right _ List.mem_cons_self))
  obtain ⟨hr, ha⟩ := p.next.not_later h hvis
  rw [p.next.final hr ha, TaintFunction.atPlace_snoc, TaintFunction.visit_shadow_self,
    p.visitInst_eq h, IrFunction.Place.unvisited hnew]

end

theorem IrFunction.exists_place (hb : b ∈ f.visitOrder) (hblk : f.blocks[b]? = some blk)
    (hbody : blk.body = done ++ rest) :
    ∃ before after, f.Place before b after blk done rest := by
  obtain ⟨before, after, ho⟩ := List.append_of_mem hb
  exact ⟨before, after, ho, hblk, hbody⟩

theorem IrFunction.WellFormed.visited_code (h : f.WellFormed) (hb : b ∈ f.visitOrder)
    (hblk : f.blocks[b]? = some blk) : f.visited.1.lookup b = some (f.blockCode blk) := by
  obtain ⟨before, after, p⟩ := exists_place hb hblk (List.nil_append blk.body).symm
  have hnot : b ∉ before := by
    have hnodup := f.visitOrder_spec.1
    rw [p.order, List.nodup_append] at hnodup
    intro hmem
    exact hnodup.2.2 b hmem b List.mem_cons_self rfl
  have hq : f.Place before b after blk blk.body [] :=
    ⟨p.order, hblk, (List.append_nil _).symm⟩
  have hterm : TaintVisitor.visitTerminator
      ((TaintFunction.atPlace f before blk blk.body).demandAll blk.term.operands).shadow blk.term =
      TaintVisitor.visitTerminator f.shadow blk.term := by
    have hsh : ∀ v ∈ blk.term.operands,
        (TaintFunction.atPlace f before blk blk.body).shadow v = f.shadow v := by
      intro v hv
      refine hq.shadow_eq h fun j hj => ?_
      subst hj
      exact h.term b blk hblk j hv
    rw [TaintFunction.shadow_demandAll]
    cases ht : blk.term with
    | br t => rfl
    | condBr c t e =>
      have hc := hsh c (by rw [ht]; exact List.mem_cons_self)
      simp only [TaintVisitor.visitTerminator, hc]
    | switch w c cases default =>
      have hc := hsh c (by rw [ht]; exact List.mem_cons_self)
      simp only [TaintVisitor.visitTerminator, hc]
    | ret v =>
      cases v with
      | none => rfl
      | some v =>
        have hv := hsh v.2 (by rw [ht]; exact List.mem_cons_self)
        simp only [TaintVisitor.visitTerminator, Option.toList_some, List.map_cons, List.map_nil,
          hv]
  rw [IrFunction.visited, p.order, (TaintFunction.visitBlocks_append _ f before _).1,
    List.lookup_append, TaintFunction.visitBlocks_lookup _ f before hnot,
    TaintFunction.visitBlocks_some _ hblk, List.lookup_cons_self]
  exact congrArg some (congrArg₂ (· ++ ·) (p.visitBody_eq h) hterm)

theorem IrFunction.WellFormed.shadow_phi (h : f.WellFormed) (hb : b ∈ f.visitOrder)
    (hblk : f.blocks[b]? = some blk) (hid : id ∈ blk.phis.map IrPhi.id) :
    f.shadow (.inst id) = .inst id := by
  obtain ⟨before, after, p⟩ := exists_place hb hblk (List.nil_append blk.body).symm
  obtain ⟨hr, ha⟩ := p.not_later h (List.mem_append_right _ (List.mem_append_left _ hid))
  rw [p.final hr ha]
  exact (TaintFunction.visitPHIs_shadow _ _ _).trans (if_pos hid)

/-- The values whose shadows the pass asks for in a block. -/
def IrBlock.shadowUses (blk : IrBlock) : List IrValue :=
  blk.body.flatMap (fun x => x.2.shadowOperands) ++ blk.term.operands

def IrBlock.phiUses (blk : IrBlock) : List IrValue :=
  blk.phis.flatMap fun φ => φ.incoming.map Prod.snd

namespace TaintFunction

theorem mem_args_demand (TF : TaintFunction) (v : IrValue) (k : Nat) :
    k ∈ (TF.demand v).args ↔ k ∈ TF.args ∨ .arg k = v := by
  cases v with
  | const v => exact (or_iff_left (by intro h; cases h)).symm
  | inst id => exact (or_iff_left (by intro h; cases h)).symm
  | arg i =>
    rw [demand, IrValue.arg.injEq]
    by_cases hi : i ∈ TF.args
    · rw [if_pos hi, or_iff_left_of_imp]
      rintro rfl
      exact hi
    · rw [if_neg hi]
      exact List.mem_cons.trans or_comm

theorem mem_args_demandAll (TF : TaintFunction) (vs : List IrValue) (k : Nat) :
    k ∈ (TF.demandAll vs).args ↔ k ∈ TF.args ∨ .arg k ∈ vs := by
  induction vs generalizing TF with
  | nil => exact (or_iff_left (by intro h; cases h)).symm
  | cons v vs ih => rw [List.mem_cons, ← or_assoc, ← mem_args_demand, ← ih, demandAll, demandAll,
      List.foldl_cons]

theorem args_noteAlloca (TF : TaintFunction) (f : IrFunction) (id : Nat) (i : IrInst) :
    (TF.noteAlloca f id i).args = TF.args := by
  cases i with
  | alloca w =>
    rw [noteAlloca]
    split <;> rfl
  | _ => rfl

theorem mem_args_visit (TF : TaintFunction) (f : IrFunction) (id : Nat) (i : IrInst) (k : Nat) :
    k ∈ (TF.visit f id i).2.args ↔ k ∈ TF.args ∨ .arg k ∈ i.shadowOperands := by
  have hargs := (TF.demandAll i.shadowOperands).args_noteAlloca f id i
  rw [← mem_args_demandAll, ← hargs]
  unfold visit
  dsimp only
  cases (TaintVisitor.visitInst _ _ id i).2 <;> rfl

theorem args_visitPHIs (TF : TaintFunction) (phis : List IrPhi) :
    (phis.foldl visitPHINode TF).args = TF.args := by
  induction phis generalizing TF with
  | nil => rfl
  | cons φ phis ih => exact ih _

theorem mem_args_visitBody (TF : TaintFunction) (f : IrFunction) (body : List (Nat × IrInst))
    (k : Nat) : k ∈ (visitBody f TF body).2.args ↔
      k ∈ TF.args ∨ .arg k ∈ body.flatMap fun x => x.2.shadowOperands := by
  induction body generalizing TF with
  | nil => exact (or_iff_left (by intro h; cases h)).symm
  | cons x body ih =>
    rw [List.flatMap_cons, List.mem_append, ← or_assoc, ← mem_args_visit TF f x.1 x.2]
    exact ih _

theorem mem_args_visitBlock (TF : TaintFunction) (f : IrFunction) (blk : IrBlock) (k : Nat) :
    k ∈ (TF.visitBlock f blk).2.args ↔ k ∈ TF.args ∨ .arg k ∈ blk.shadowUses := by
  rw [IrBlock.shadowUses, List.mem_append, ← or_assoc, ← args_visitPHIs TF blk.phis,
    ← mem_args_visitBody]
  exact mem_args_demandAll _ _ k

theorem mem_args_visitBlocks (TF : TaintFunction) (f : IrFunction) (order : List Nat) (k : Nat) :
    k ∈ (visitBlocks f TF order).2.args ↔
      k ∈ TF.args ∨ ∃ b ∈ order, ∃ blk, f.blocks[b]? = some blk ∧ .arg k ∈ blk.shadowUses := by
  induction order generalizing TF with
  | nil => exact (or_iff_left (by rintro ⟨b, hb, -⟩; cases hb)).symm
  | cons b order ih =>
    rw [List.exists_mem_cons_iff]
    cases hblk : f.blocks[b]? with
    | none =>
      rw [visitBlocks_none TF hblk, ih]
      refine or_congr_right (or_iff_right_of_imp ?_).symm
      rintro ⟨blk, he, -⟩
      cases he
    | some blk =>
      rw [visitBlocks_some TF hblk, ih, mem_args_visitBlock, or_assoc]
      refine or_congr_right (or_congr_left ⟨fun hk => ⟨blk, rfl, hk⟩, ?_⟩)
      rintro ⟨_, he, hk⟩
      cases he
      exact hk

end TaintFunction

/-- The entry block loads the shadows of exactly the arguments that a visited block uses. -/
theorem IrFunction.mem_shadowArgs (f : IrFunction) (k : Nat) : k ∈ f.shadowArgs ↔
    ∃ b ∈ f.visitOrder, ∃ blk, f.blocks[b]? = some blk ∧
      (.arg k ∈ blk.shadowUses ∨ .arg k ∈ blk.phiUses) := by
  unfold shadowArgs
  rw [TaintFunction.mem_args_demandAll, visited, TaintFunction.mem_args_visitBlocks,
    List.mem_flatMap]
  constructor
  · rintro ((hk | ⟨b, hb, blk, hblk, hk⟩) | ⟨b, hb, hk⟩)
    · cases hk
    · exact ⟨b, hb, blk, hblk, .inl hk⟩
    · cases hblk : f.blocks[b]? with
      | none =>
        rw [hblk] at hk
        cases hk
      | some blk =>
        rw [hblk] at hk
        exact ⟨b, hb, blk, hblk, .inr hk⟩
  · rintro ⟨b, hb, blk, hblk, hk | hk⟩
    · exact .inl (.inr ⟨b, hb, blk, hblk, hk⟩)
    · refine .inr ⟨b, hb, ?_⟩
      rw [hblk]
      exact hk

theorem TaintVisitor.visitInst_shadow {sh : IrValue → Shadow} {i : IrInst}
    (h : (visitInst sh slots id i).2 = some s) :
    s = .zero ∨ s = .inst id ∨ ∃ v ∈ i.shadowOperands, sh v = s := by
  have hcombine : ∀ v1 v2 op site, (combineShadows id v1 v2 op site).2 = .zero ∨
      (combineShadows id v1 v2 op site).2 = .inst id := by
    intro v1 v2 op site
    unfold combineShadows
    by_cases hz : v1 = .zero ∧ v2 = .zero
    · rw [if_pos hz]
      exact .inl hz.1
    · rw [if_neg hz]
      by_cases hw : site.resultWidth > 64
      · rw [if_pos hw]
        exact .inl rfl
      · rw [if_neg hw]
        exact .inr rfl
  have hbefore : ∀ i' v1 v2 op site,
      (before id i' (combineShadows id v1 v2 op site)).2 = some s → s = .zero ∨ s = .inst id := by
    intro i' v1 v2 op site he
    cases he
    exact hcombine v1 v2 op site
  cases i with
  | binary op w a b => exact (hbefore _ _ _ _ _ h).imp_right .inl
  | cast op w w' a => exact (hbefore _ _ _ _ _ h).imp_right .inl
  | icmp p w a b => exact (hbefore _ _ _ _ _ h).imp_right .inl
  | select w c a b =>
    simp only [visitInst, visitSelectInst, Option.some.injEq] at h
    by_cases hab : sh a = sh b
    · rw [if_pos hab] at h
      exact .inr (.inr ⟨a, List.mem_cons_self, h⟩)
    · rw [if_neg hab] at h
      exact .inr (.inl h.symm)
  | alloca w =>
    cases h
    exact .inl rfl
  | load w ptr =>
    simp only [visitInst, visitLoadInst] at h
    split at h <;> exact .inr (.inl (Option.some.inj h).symm)
  | pread buf count offset =>
    cases h
    exact .inr (.inl rfl)
  | call callee args ret =>
    cases ret with
    | none => cases h
    | some w =>
      cases h
      exact .inr (.inl rfl)
  | gep | store | memset | memTransfer => cases h

namespace TaintFunction

/-- All shadows in use are computed by the code of the given instructions. -/
def ShadowsFrom (TF : TaintFunction) (ids : List Nat) : Prop :=
  ∀ v r, TF.shadow v = .inst r → r ∈ ids

theorem ShadowsFrom.of_inst {TF : TaintFunction}
    (h : ∀ j r, TF.shadow (.inst j) = .inst r → r ∈ ids) : TF.ShadowsFrom ids := by
  intro v r hv
  cases v with
  | const | arg => cases hv
  | inst j => exact h j r hv

theorem ShadowsFrom.visit {TF : TaintFunction} (h : TF.ShadowsFrom ids) (f : IrFunction)
    (id : Nat) (i : IrInst) : (TF.visit f id i).2.ShadowsFrom (ids ++ [id]) := by
  apply of_inst
  intro j r hr
  by_cases hj : j = id
  · subst hj
    rw [visit_shadow_self] at hr
    cases hs : (TaintVisitor.visitInst TF.shadow (TF.slotsAt f j i) j i).2 with
    | none =>
      rw [hs] at hr
      exact List.mem_append_left _ (h (.inst j) r hr)
    | some s =>
      rw [hs] at hr
      cases hr
      rcases TaintVisitor.visitInst_shadow hs with hz | hown | ⟨v, -, hv⟩
      · cases hz
      · cases hown
        exact List.mem_append_right _ List.mem_cons_self
      · exact List.mem_append_left _ (h v r hv)
  · rw [visit_shadow_of_ne TF f i hj] at hr
    exact List.mem_append_left _ (h _ r hr)

theorem ShadowsFrom.phis {TF : TaintFunction} (h : TF.ShadowsFrom ids) (phis : List IrPhi) :
    (phis.foldl visitPHINode TF).ShadowsFrom (ids ++ phis.map IrPhi.id) := by
  apply of_inst
  intro j r hr
  rw [visitPHIs_shadow] at hr
  by_cases hj : j ∈ phis.map IrPhi.id
  · rw [if_pos hj] at hr
    cases hr
    exact List.mem_append_right _ hj
  · rw [if_neg hj] at hr
    exact List.mem_append_left _ (h _ r hr)

theorem ShadowsFrom.body {TF : TaintFunction} (h : TF.ShadowsFrom ids) (f : IrFunction)
    (body : List (Nat × IrInst)) :
    (visitBody f TF body).2.ShadowsFrom (ids ++ body.map Prod.fst) := by
  induction body generalizing TF ids with
  | nil =>
    rw [List.map_nil, List.append_nil]
    exact h
  | cons x body ih =>
    have hrest := ih (h.visit f x.1 x.2)
    rw [List.append_assoc] at hrest
    exact hrest

theorem ShadowsFrom.blocks {TF : TaintFunction} (h : TF.ShadowsFrom ids) (f : IrFunction)
    (order : List Nat) :
    (visitBlocks f TF order).2.ShadowsFrom (ids ++ order.flatMap f.defsOf) := by
  induction order generalizing TF ids with
  | nil =>
    rw [List.flatMap_nil, List.append_nil]
    exact h
  | cons b order ih =>
    rw [List.flatMap_cons]
    cases hb : f.blocks[b]? with
    | none =>
      rw [visitBlocks_none TF hb, IrFunction.defsOf, hb]
      exact ih h
    | some blk =>
      have hblock : (TF.visitBlock f blk).2.ShadowsFrom (ids ++ blk.defs) := by
        have hbody := ShadowsFrom.body (h.phis blk.phis) f blk.body
        rw [List.append_assoc] at hbody
        intro v r hr
        exact hbody v r ((congrFun (shadow_demandAll _ _) v).symm.trans hr)
      rw [visitBlocks_some TF hb, f.defsOf_eq hb, ← List.append_assoc]
      exact ih hblock

end TaintFunction

theorem IrFunction.Place.shadow_visited (p : f.Place before b after blk done rest)
    (h : f.WellFormed) (hj : j ∈ visitedAt f before blk done)
    (hr : f.shadow (.inst j) = .inst r) : r ∈ visitedAt f before blk done := by
  obtain ⟨hrest, hafter⟩ := p.not_later h hj
  rw [p.final hrest hafter] at hr
  have hinitial : TaintFunction.initial.ShadowsFrom [] := by
    apply TaintFunction.ShadowsFrom.of_inst
    intro j r hr
    cases hr
  have hat := TaintFunction.ShadowsFrom.body
    ((hinitial.blocks f before).phis blk.phis) f done
  rw [List.nil_append, List.append_assoc] at hat
  exact hat _ r hr

end

end Kirenenko
