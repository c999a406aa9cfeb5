import Kirenenko.Runtime.Denotation

namespace Kirenenko
set_option autoImplicit true

/-- The exceptions that the handlers of the runtime catch. -/
def IsZ3 (e : Exn) : Prop := ∃ x, e = .z3 x

/-- Every way to fail but the use of a record that is not allocated. -/
def NotIndex (e : Exn) : Prop := ∀ l, e ≠ .fault (.badIndex l)

theorem IsZ3.notIndex (h : IsZ3 e) : NotIndex e := by
  obtain ⟨x, rfl⟩ := h
  exact fun _ => nofun

section
variable {t : LabelTable}

theorem keeps_liftZ3 {I : σ → Prop} (x : Except Z3Exception α) :
    Keeps I IsZ3 (liftZ3 x : EStateM Exn σ α) := by
  cases x with
  | ok a => exact .pure a
  | error e => exact .throw ⟨e, rfl⟩

/-- What serialization leaves alone: the keys, the flags, and the caches that are filled. -/
structure SerializeFrame (t s : LabelTable) : Prop where
  same : SameKeys t s
  flipped : ∀ l, (s.info l).flipped = (t.info l).flipped
  cached : ∀ l e, (t.info l).expr = some e →
    (s.info l).expr = some e ∧ (s.info l).deps = (t.info l).deps

theorem SerializeFrame.refl (t : LabelTable) : SerializeFrame t t :=
  ⟨.refl t, fun _ => rfl, fun _ _ he => ⟨he, rfl⟩⟩

theorem SerializeFrame.modifyInfo {f : LabelInfo → LabelInfo} (h : SerializeFrame t s)
    (hk : ∀ info, (f info).toLabelKey = info.toLabelKey)
    (hf : ∀ info, (f info).flipped = info.flipped)
    (hc : (t.info label).expr = none ∨
      ∀ info, (f info).expr = info.expr ∧ (f info).deps = info.deps) :
    SerializeFrame t (s.modifyInfo label f) where
  same := h.same.trans (.modifyInfo s label hk)
  flipped l := by
    rcases modifyInfo_cases s label f l with ⟨rfl, hinfo⟩ | hinfo
    · rw [hinfo, hf]
      exact h.flipped l
    · rw [hinfo]
      exact h.flipped l
  cached l e he := by
    rcases modifyInfo_cases s label f l with ⟨rfl, hinfo⟩ | hinfo
    · rw [hinfo]
      rcases hc with hc | hc
      · rw [hc] at he
        cases he
      · rw [(hc _).1, (hc _).2]
        exact h.cached l e he
    · rw [hinfo]
      exact h.cached l e he

theorem getInfo_eq (label : Nat) (t : LabelTable) :
    getInfo label t = if label ≤ t.lastLabel then .ok (t.info label) t
      else .error (.fault (.badIndex label)) t := by
  unfold getInfo LabelTable.getLabelInfo
  rw [estate_bind_ok (x := get) rfl]
  by_cases hl : label ≤ t.lastLabel
  · simp only [if_pos hl]
    rfl
  · simp only [if_neg hl]
    rfl

theorem getInfo_frame (hl : label ≤ t.lastLabel) (s : LabelTable) (hs : SerializeFrame t s) :
    ∃ info, getInfo label s = .ok info s ∧ info.toLabelKey = t.key label ∧
      (info.expr = none → (t.info label).expr = none) := by
  have hl' : label ≤ s.lastLabel := by rw [hs.same.lastLabel]; exact hl
  have hinfo : getInfo label s = .ok (s.info label) s := (getInfo_eq label s).trans (if_pos hl')
  refine ⟨s.info label, hinfo, congrFun hs.same.key label, ?_⟩
  intro hnone
  cases he : (t.info label).expr with
  | none => rfl
  | some e =>
    rw [(hs.cached label e he).1] at hnone
    cases hnone

theorem keeps_setTreeSize : Keeps (SerializeFrame t) IsZ3 (setTreeSize label n) :=
  .update fun _ hs => hs.modifyInfo (fun _ => rfl) (fun _ => rfl) (.inr fun _ => ⟨rfl, rfl⟩)

theorem keeps_cacheExpr (hfresh : (t.info label).expr = none) :
    Keeps (SerializeFrame t) IsZ3 (cacheExpr label e deps) := by
  refine .bind (.update ?_) fun _ => .pure _
  intro s hs
  exact hs.modifyInfo (fun _ => rfl) (fun _ => rfl) (.inl hfresh)

theorem keeps_copyTreeSize {x : SerializeM α} (hc : c ≤ t.lastLabel)
    (hx : Keeps (SerializeFrame t) IsZ3 x) :
    Keeps (SerializeFrame t) IsZ3
      (getInfo c >>= fun i => setTreeSize label i.treeSize >>= fun _ => x) :=
  .read (getInfo_frame hc) fun _ _ => .bind keeps_setTreeSize fun _ => hx

theorem keeps_unary {F : Term → Except Z3Exception Term}
    {operand : SerializeM (Term × Finset Nat)} (hfresh : (t.info label).expr = none)
    (hc : c ≤ t.lastLabel) (hop : Keeps (SerializeFrame t) IsZ3 operand) :
    Keeps (SerializeFrame t) IsZ3
      (operand >>= fun p => getInfo c >>= fun i => setTreeSize label i.treeSize >>= fun _ =>
        liftZ3 (F p.1) >>= fun e => cacheExpr label e p.2) :=
  hop.bind fun _ => keeps_copyTreeSize hc (.bind (keeps_liftZ3 _) fun _ => keeps_cacheExpr hfresh)

theorem keeps_serializeNode {operand : Nat → Finset Nat → SerializeM (Term × Finset Nat)}
    (hfresh : (t.info label).expr = none) (h1 : info.l1 ≤ t.lastLabel)
    (h2 : info.op ≠ Operators.Load.code → info.l2 ≤ t.lastLabel)
    (hop1 : ∀ deps, Keeps (SerializeFrame t) IsZ3 (operand info.l1 deps))
    (hop2 : info.op ≠ Operators.Load.code → ∀ deps,
      Keeps (SerializeFrame t) IsZ3 (operand info.l2 deps)) :
    Keeps (SerializeFrame t) IsZ3 (serializeNode z mem operand label info deps) := by
  unfold serializeNode
  refine .ite (fun _ => ?_) fun _ => .ite (fun _ => ?_) fun hL => ?_
  · exact .bind (keeps_liftZ3 _) fun _ => .bind keeps_setTreeSize fun _ => .pure _
  · refine .read (getInfo_frame h1) fun base _ => ?_
    exact .bind (keeps_liftZ3 _) fun _ => .bind keeps_setTreeSize fun _ => keeps_cacheExpr hfresh
  replace h2 := h2 hL
  replace hop2 := hop2 hL
  refine .ite (fun _ => ?_) fun _ => .ite (fun _ => ?_) fun _ => ?_
  · refine (hop1 _).bind fun _ => .bind (keeps_liftZ3 _) fun _ => .bind (keeps_liftZ3 _) fun _ => ?_
    exact keeps_copyTreeSize h1 (.bind (keeps_liftZ3 _) fun _ => keeps_cacheExpr hfresh)
  · refine (hop1 _).bind fun _ => .bind (keeps_liftZ3 _) fun _ => ?_
    exact keeps_copyTreeSize h1 (.bind (keeps_liftZ3 _) fun _ => keeps_cacheExpr hfresh)
  refine .ite (fun _ => keeps_unary hfresh h1 (hop1 _)) fun _ =>
    .ite (fun _ => keeps_unary hfresh h1 (hop1 _)) fun _ => ?_
  refine .ite (fun _ => ?_) fun _ => .ite (fun _ => ?_) fun _ => .ite (fun _ => ?_) fun _ => ?_
  · exact .ite (fun _ => .throw ⟨_, rfl⟩) fun _ => keeps_unary hfresh h2 (hop2 _)
  · exact .ite (fun _ => .throw ⟨_, rfl⟩) fun _ =>
      keeps_unary (F := fun e => checked (.neg e)) hfresh h2 (hop2 _)
  · refine .bind ?_ fun _ => .ite (fun _ => .throw ⟨_, rfl⟩) fun _ => ?_
    · exact .ite (fun _ => hop1 _) fun _ => .map (keeps_liftZ3 _)
    · refine (hop2 _).bind fun _ => .bind keeps_setTreeSize fun _ => ?_
      exact .bind (keeps_liftZ3 _) fun _ => .pure _
  refine .ite (fun _ => ?_) fun _ => ?_
  · exact .bind (keeps_liftZ3 _) fun _ => .bind keeps_setTreeSize fun _ => .pure _
  refine .read (getInfo_frame h1) fun _ _ => .read (getInfo_frame h2) fun _ _ => ?_
  refine .bind (keeps_liftZ3 _) fun _ => .bind ?_ fun _ => .bind (keeps_liftZ3 _) fun _ =>
    .bind ?_ fun _ => ?_
  · exact .ite (fun _ => (hop1 _).map) fun _ => .pure _
  · exact .ite (fun _ => (hop2 _).map) fun _ => .pure _
  · refine .read (getInfo_frame h1) fun _ _ => .read (getInfo_frame h2) fun _ _ => ?_
    exact .bind keeps_setTreeSize fun _ => .bind (keeps_liftZ3 _) fun _ => keeps_cacheExpr hfresh

/-- Serialization keeps the frame, needs no record that is not allocated, and leaves only by
returning or by an exception that its callers catch. -/
theorem keeps_serialize (ho : Ordered t) (hl : label ≤ t.lastLabel) (hf : label < fuel) :
    Keeps (SerializeFrame t) IsZ3 (serialize z mem fuel label deps) := by
  induction fuel generalizing label deps with
  | zero => omega
  | succ fuel ih =>
    unfold serialize
    refine .ite (fun _ => .throw ⟨_, rfl⟩) fun hc => ?_
    have hlo : constOffset ≤ label := by omega
    have h1 := ho.l1 label hlo hl
    have h2 := ho.l2 label hlo hl
    apply Keeps.read (getInfo_frame hl)
    rintro info ⟨hk, hfresh⟩
    rw [← hk] at h1 h2
    cases he : info.expr with
    | some e => exact .pure _
    | none =>
      apply keeps_serializeNode (hfresh he)
      · omega
      · intro hL
        have := h2 hL
        omega
      · intro deps
        exact ih (by omega) (by omega)
      · intro hL deps
        have := h2 hL
        exact ih (by omega) (by omega)

end

end Kirenenko
