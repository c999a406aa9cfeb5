import Kirenenko.Runtime.CurrentTerm
import Kirenenko.Runtime.Slicing
import Kirenenko.Runtime.TaintFile
import Kirenenko.Runtime.TraceEvents

namespace Kirenenko
set_option autoImplicit true

inductive Whence where
  | seekSet
  | seekCur
  | seekEnd
deriving DecidableEq

/-- What the system knows about an open file; positions and sizes are of type `off_t`. -/
structure OpenFile where
  position : Nat
  size : Nat
  seekable : Bool
  position_lt : position < 2 ^ 63
  size_lt : size < 2 ^ 63

def Whence.base (file : OpenFile) : Whence → Nat
  | seekSet => 0
  | seekCur => file.position
  | seekEnd => file.size

/-- The system call: it fails for a position that is negative or does not fit into an `off_t`. -/
def lseek (file : OpenFile) (offset : Int) (whence : Whence) : Option Nat :=
  let pos := whence.base file + offset
  if file.seekable ∧ 0 ≤ pos ∧ pos < 2 ^ 63 then some pos.toNat else none

/-- An `off_t` as the `u64` that a record has room for. -/
def offToU64 (offset : Int) : Nat := (offset % 2 ^ 64).toNat

/-- The record that says that the offset is the one of this run. -/
def seekKey (offsetLabel : Nat) (offset : Int) : LabelKey :=
  { l1 := offsetLabel, l2 := 0, op := equalOp, size := 64, op2 := offToU64 offset }

/-- The result with its label, and the label left in `tainted.offset_label`. -/
structure SeekReturn where
  ret : Option Nat
  retLabel : Nat
  offsetLabel : Nat

def dfswLseek (z : Z3) (mem : Memory) (input : TaintedInput) (f : TaintFile) (file : OpenFile)
    (fd offset : Int) (whence : Whence) (offsetLabel old : Nat) : SolveM SeekReturn :=
  match lseek file offset whence with
  | none => pure ⟨none, 0, old⟩
  | some ret =>
    if taintGetFile f fd ≠ 0 then do
      if offsetLabel ≠ 0 then
        let sc ← unionLabel (seekKey offsetLabel offset)
        let _ ← addConstraints z mem input sc
      return ⟨some ret, offsetLabel, offsetLabel⟩
    else return ⟨some ret, offsetLabel, old⟩

/-- On the input `env`, the 64-bit expression of a label has the value of an offset. -/
def IsOffset (z : Z3) (mem : Memory) (env : Env) (t : LabelTable) (l : Nat) (offset : Int) : Prop :=
  ∃ e deps t', serialize z mem (l + 1) l ∅ t = .ok (e, deps) t' ∧ e.sort = some (.bv 64) ∧
    e.eval env = offToU64 offset

/-- A table that is reached by operations that read one memory. -/
def ReachedIn (z : Z3) (mem : Memory) (h : TableHistory) (t : LabelTable) : Prop :=
  ∃ as h', Steps (TableStep z) h as h' ∧ t = h'.table ∧
    ∀ m label deps, TableOp.serialize m label deps ∈ as → m = mem

/-- Every constraint that is recorded in one state and not in another holds on the input `env`. -/
def NewHold (env : Env) (s s' : SolverState) : Prop :=
  ∀ o d e, s'.dep o = some d → e ∈ d.exprDeps →
    e.eval env = 1 ∨ ∃ d', s.dep o = some d' ∧ e ∈ d'.exprDeps

section
variable {z : Z3} {mem : Memory} {env : Env} {t : LabelTable} {s s' : SolverState}

theorem lseek_ok (h : lseek file offset whence = some pos) :
    (pos : Int) = whence.base file + offset ∧ pos < 2 ^ 63 := by
  unfold lseek at h
  by_cases hc : file.seekable ∧ 0 ≤ whence.base file + offset ∧ whence.base file + offset < 2 ^ 63
  · rw [if_pos hc] at h
    cases h
    omega
  · rw [if_neg hc] at h
    cases h

theorem Whence.base_lt (file : OpenFile) (whence : Whence) : whence.base file < 2 ^ 63 := by
  cases whence with
  | seekSet => exact Nat.two_pow_pos 63
  | seekCur => exact file.position_lt
  | seekEnd => exact file.size_lt

/-- A position is the offset only if it is counted from the start. -/
theorem offToU64_pos (h : lseek file offset whence = some pos) :
    offToU64 offset = pos ↔ whence.base file = 0 := by
  have hb := whence.base_lt file
  obtain ⟨hpos, hlt⟩ := lseek_ok h
  unfold offToU64
  omega

theorem IsOffset.label (h : IsOffset z mem env t l offset) :
    constOffset ≤ l ∧ l ≤ t.lastLabel := by
  obtain ⟨e, deps, t', hs, _⟩ := h
  obtain ⟨hlo, hl, _⟩ := serialize_ok_cases hs
  exact ⟨hlo, hl⟩

theorem isOffset_iff (ho : Ordered t) (hc : CachesFixed z t) (hl : l ≤ t.lastLabel) :
    IsOffset z mem env t l offset ↔ ∃ e, currentTerm z mem t l = .ok e ∧
      e.sort = some (.bv 64) ∧ e.eval env = offToU64 offset := by
  constructor
  · rintro ⟨e, deps, t', hs, he⟩
    exact ⟨e, (hc.serialize ho hl).1 ⟨deps, t', hs⟩, he⟩
  · rintro ⟨e, hterm, he⟩
    obtain ⟨deps, t', hs⟩ := (hc.serialize ho hl).2 hterm
    exact ⟨e, deps, t', hs, he⟩

theorem seekKey_union (hinv : TableInv t S) (hlo : constOffset ≤ l) (hl : l ≤ t.lastLabel)
    (hu : dfsanUnion t (seekKey l offset) = .ok (sc, t')) :
    Allocated t (seekKey l offset) ∧ constOffset ≤ sc ∧ sc ≤ t'.lastLabel ∧
      t'.key sc = seekKey l offset := by
  have ha : Allocated t (seekKey l offset) := ⟨hl, fun _ => Nat.zero_le _⟩
  have hload : equalOp ≠ Operators.Load.code := by decide
  have hswap : swapOperands (seekKey l offset) = seekKey l offset :=
    if_neg fun h => absurd h.2 (by decide : ¬isCommutative equalOp)
  have hret := hinv.union_returns ha (ha.not_init hinv.ordered hload) hu
  rcases hret.key with ⟨_, hc⟩ | ⟨hsc, hk⟩
  · rw [hswap] at hc
    exact (Nat.ne_of_gt hlo hc.1).elim
  · refine ⟨ha, hsc, hret.label, ?_⟩
    rw [hk, canonical, hswap]
    unfold zeroConcrete seekKey
    simp only [ite_self]
    rfl

theorem nodeTerm_seek (hlo : constOffset ≤ l)
    (he : nodeTerm z mem key (seekKey l offset) sub = .ok e) :
    ∃ a, sub l = .ok a ∧ e = .eq (z.simplify a) (.bvVal (offToU64 offset) 64) ∧
      (z.simplify a).sort = some (.bv 64) := by
  rw [nodeTerm_common (by decide : isSpecialOp equalOp = false)] at he
  obtain ⟨_, _, e1, e2, he1, he2, hcmp⟩ := he
  have hl : (seekKey l offset).l1 ≥ constOffset := hlo
  rw [operandTermOf, if_pos hl, except_map_ok] at he1
  obtain ⟨a, ha, rfl⟩ := he1
  cases he2
  have heq : commonTerm equalOp 64 (z.simplify a) (.bvVal (offToU64 offset) 64) =
      checked (.eq (z.simplify a) (.bvVal (offToU64 offset) 64)) := rfl
  change commonTerm equalOp 64 (z.simplify a) (.bvVal (offToU64 offset) 64) = .ok e at hcmp
  rw [heq] at hcmp
  obtain ⟨rfl, σ, hσ⟩ := checked_eq_ok.1 hcmp
  obtain ⟨_, τ, h1, h2⟩ := Term.sort_inversion hσ
  exact ⟨a, ha, rfl, h1.trans (h2.symm.trans (Term.sort_bvVal_of_ne _ (by decide)))⟩

/-- Also if it is cached, the comparison is about the term that the offset has now. -/
theorem seekKey_current (hz : z.Lawful) (ho : Ordered t) (hc : CachesFixed z t)
    (hlo : constOffset ≤ l) (hsc : constOffset ≤ sc) (hlast : sc ≤ t.lastLabel)
    (hk : t.key sc = seekKey l offset) (he : currentTerm z mem t sc = .ok e)
    (ha : currentTerm z mem t l = .ok a) :
    e = .eq (z.simplify a) (.bvVal (offToU64 offset) 64) := by
  have hlt := ho.l1 sc hsc hlast
  rw [hk] at hlt
  cases hx : (t.info sc).expr with
  | none =>
    rw [currentTerm_node ho hsc hlast hx, hk] at he
    obtain ⟨b, hb, rfl, _⟩ := nodeTerm_seek hlo he
    cases ha.symm.trans hb
    rfl
  | some e' =>
    cases (currentTerm_cached ho hsc hlast hx).symm.trans he
    have hbuilt := hc sc e hsc hlast hx
    unfold BuiltOnFixed at hbuilt
    rw [hk] at hbuilt
    obtain ⟨m, sub, b, hn, hb, hs⟩ := hbuilt (by decide : isSpecialOp equalOp = false) hlo
    obtain ⟨b', hb', rfl, hsort⟩ := nodeTerm_seek hlo hn
    cases hb.symm.trans hb'
    have hne : b.sort ≠ some (.bv 32) := by
      intro h32
      cases (hz.simplify_sort b _ h32).symm.trans hsort
    cases ha.symm.trans (hs.currentTerm ho hlo (Nat.le_trans (Nat.le_of_lt hlt) hlast) hne)
    rfl

theorem seekKey_holds (hz : z.Lawful) (ho : Ordered t) (hc : CachesFixed z t)
    (hd : IsOffset z mem env t l offset) (hsc : constOffset ≤ sc) (hlast : sc ≤ t.lastLabel)
    (hk : t.key sc = seekKey l offset) (he : currentTerm z mem t sc = .ok e) :
    e.eval env = 1 := by
  obtain ⟨hlo, hl⟩ := hd.label
  obtain ⟨a, ha, hsort, hval⟩ := (isOffset_iff ho hc hl).1 hd
  rw [seekKey_current hz ho hc hlo hsc hlast hk he ha]
  have heq : (z.simplify a).eval env = (Term.bvVal (offToU64 offset) 64).eval env := by
    rw [hz.simplify_eval a _ env hsort, hval]
    change _ = offToU64 offset % 2 ^ 64
    unfold offToU64
    omega
  rw [Term.eval, decide_eq_true heq]
  rfl

theorem ReachedIn.isOffset {h : TableHistory} (hr : Steps (TableStep z) .initial as h)
    (ht : ReachedIn z mem h t) (hl : l ≤ h.table.lastLabel) :
    IsOffset z mem env t l offset ↔ IsOffset z mem env h.table l offset := by
  obtain ⟨bs, h', hr', rfl, hbs⟩ := ht
  have hi := (hr.table_inv TableHistory.initial_inv).1
  have hi' := (hr'.table_inv hi).1
  have ho := TableInv.ordered hi
  have ho' := TableInv.ordered hi'
  have hfresh := hr'.refreshed hi hr.cachesFixed hbs
  rw [isOffset_iff ho hr.cachesFixed hl, isOffset_iff ho' (hr.append hr').cachesFixed
    (Nat.le_trans hl hfresh.grows.lastLabel), hfresh.currentTerm ho ho' hl]

theorem addSeek_holds {h : TableHistory} (hz : z.Lawful)
    (hr : Steps (TableStep z) .initial as h) (hs : s.table = h.table)
    (hd : IsOffset z mem env s.table l offset)
    (hu : unionLabel (seekKey l offset) s = .ok sc s₁)
    (ha : addConstraints z mem input sc s₁ = .ok x s') :
    ReachedIn z mem h s'.table ∧ NewHold env s s' := by
  obtain ⟨t, hunion, rfl⟩ := unionLabel_ok hu
  obtain ⟨hlo, hl⟩ := hd.label
  rw [hs] at hd hl hunion
  have hinv : TableInv h.table h.Stored := (hr.table_inv TableHistory.initial_inv).1
  obtain ⟨halloc, hsc, hlast, hk⟩ := seekKey_union hinv hlo hl hunion
  have hstep : TableStep z h (.union (seekKey l offset)) (h.afterUnion sc t) := .union halloc hunion
  have htable := h.afterUnion_table sc t
  have hr₁ := hr.append (.single hstep)
  have hreach : ReachedIn z mem h t := ⟨_, _, .single hstep, htable.symm, by simp⟩
  have hd₁ := (hreach.isOffset hr hl).2 hd
  rcases addConstraints_outcome ha with rfl | ⟨hflip, hdep⟩
  · refine ⟨hreach, ?_⟩
    intro o d e hdep he
    exact .inr ⟨d, hdep, he⟩
  have hi₁ := (hr₁.table_inv TableHistory.initial_inv).1
  have hlast₁ : sc ≤ (h.afterUnion sc t).table.lastLabel := by
    rw [htable]
    exact hlast
  have hser : TableStep z (h.afterUnion sc t) (.serialize mem sc ∅) _ := .serialize hlast₁
  have hflip' : TableStep z _ (.flip sc) _ :=
    .flip (Nat.le_trans hlast₁ (hser.extends hi₁).lastLabel)
  refine ⟨⟨_, _, .cons hstep (.cons hser (.single hflip')), ?_, ?_⟩, ?_⟩
  · rw [hflip, htable]
    rfl
  · simp +contextual
  · intro o d e' ho he
    rcases hdep with hdep | ⟨e, deps, t₂, hs₂, hdep⟩
    · rw [hdep] at ho
      exact .inr ⟨d, ho, he⟩
    · rw [hdep] at ho
      rcases recorded_exprDeps ho he with ⟨rfl, _⟩ | hold
      · have ho₁ := TableInv.ordered hi₁
        have hc₁ := hr₁.cachesFixed
        rw [htable] at ho₁ hc₁
        exact .inl (seekKey_holds hz ho₁ hc₁ hd₁ hsc hlast hk
          ((hc₁.serialize ho₁ hlast).1 ⟨deps, t₂, hs₂⟩))
      · exact .inr hold

theorem dfswLseek_spec {h : TableHistory} (hz : z.Lawful)
    (hr : Steps (TableStep z) .initial as h) (hs : s.table = h.table)
    (hd : IsOffset z mem env s.table l offset)
    (hrun : dfswLseek z mem input f file fd offset whence l old s = .ok r s')
    (hret : r.ret = some pos) :
    lseek file offset whence = some pos ∧ r.retLabel = l ∧ ReachedIn z mem h s'.table ∧
      NewHold env s s' := by
  have hl : l ≠ 0 := Nat.ne_of_gt hd.label.1
  unfold dfswLseek at hrun
  cases hseek : lseek file offset whence with
  | none =>
    rw [hseek] at hrun
    cases hrun
    cases hret
  | some p =>
    rw [hseek] at hrun
    by_cases hf : taintGetFile f fd ≠ 0
    · simp only [if_pos hf, if_pos hl] at hrun
      obtain ⟨sc, s₁, hu, hrun⟩ := estate_bind_eq_ok.1 hrun
      obtain ⟨x, s₂, ha, hrun⟩ := estate_bind_eq_ok.1 hrun
      cases hrun
      exact ⟨hret, rfl, addSeek_holds hz hr hs hd hu ha⟩
    · simp only [if_neg hf] at hrun
      cases hrun
      exact ⟨hret, rfl, ⟨[], h, .nil, hs, by simp⟩, fun o d e ho he => .inr ⟨d, ho, he⟩⟩

theorem IsOffset.pos_iff (hd : IsOffset z mem env t l offset)
    (hseek : lseek file offset whence = some pos) :
    IsOffset z mem env t l pos ↔ whence.base file = 0 := by
  have hpos : offToU64 pos = pos := by
    have := (lseek_ok hseek).2
    unfold offToU64
    omega
  obtain ⟨e, deps, t', hs, hsort, hval⟩ := hd
  rw [← offToU64_pos hseek]
  constructor
  · rintro ⟨e', deps', t'', hs', _, hval'⟩
    rw [hs] at hs'
    cases hs'
    rw [← hval, hval', hpos]
  · intro heq
    exact ⟨e, deps, t', hs, hsort, by rw [hval, heq, hpos]⟩

/-- The label of the result is the label of the argument, which is right only if the offset is
counted from the start of the file. -/
theorem lseek_label_iff {h : TableHistory} (hz : z.Lawful)
    (hr : Steps (TableStep z) .initial as h) (hs : s.table = h.table)
    (hd : IsOffset z mem env s.table l offset)
    (hrun : dfswLseek z mem input f file fd offset whence l old s = .ok r s')
    (hret : r.ret = some pos) :
    IsOffset z mem env s'.table r.retLabel pos ∧ NewHold env s s' ↔ whence.base file = 0 := by
  obtain ⟨hseek, hlabel, hreach, hhold⟩ := dfswLseek_spec hz hr hs hd hrun hret
  rw [hs] at hd
  rw [and_iff_left hhold, hlabel, hreach.isOffset hr hd.label.2]
  exact hd.pos_iff hseek

end

/-- An input byte, extended to an offset. -/
def seekOps : List TableOp := [.create 0, .union ⟨1, 0, Operators.ZExt.code, 64, 0, 0⟩]

def seekInput : TaintedInput := ⟨false, [1, 0, 0]⟩

def seekFile : OpenFile := ⟨1, 3, true, by decide, by decide⟩

def seekRet : EStateM.Result Exn SolverState SeekReturn → Option Nat
  | .ok r _ => r.ret
  | .error _ _ => none

theorem seekRet_eq_some (h : seekRet x = some pos) : ∃ r s', x = .ok r s' ∧ r.ret = some pos := by
  cases x with
  | ok r s' => exact ⟨r, s', rfl, h⟩
  | error e s' => cases h

theorem seekOps_run : ∃ h, Steps (TableStep .idle) .initial seekOps h ∧
    IsOffset .idle (fun _ => 0) (inputEnv seekInput.bytes) h.table 2 1 ∧
    ∀ whence, ∃ r s', dfswLseek .idle (fun _ => 0) seekInput { fd := 3, size := 3 } seekFile 3 1
      whence 2 0 (.start seekInput h.table) = .ok r s' ∧
      r.ret = some (whence.base seekFile + 1) := by
  have hr : Steps (TableStep .idle) .initial seekOps _ :=
    .cons (.create rfl) (.cons (.union ⟨by decide, fun _ => by decide⟩ rfl) .nil)
  refine ⟨_, hr, ⟨_, _, _, rfl, rfl, by decide +kernel⟩, ?_⟩
  intro whence
  apply seekRet_eq_some
  cases whence <;> decide +kernel

/-- Seeking by one from position one leads to two, with a label that is one. -/
theorem seek_from_current :
    ∃ h s' r, Steps (TableStep .idle) .initial seekOps h ∧
      IsOffset .idle (fun _ => 0) (inputEnv seekInput.bytes) h.table 2 1 ∧
      dfswLseek .idle (fun _ => 0) seekInput { fd := 3, size := 3 } seekFile 3 1 .seekCur 2 0
        (.start seekInput h.table) = .ok r s' ∧
      r.ret = some 2 ∧
      ¬IsOffset .idle (fun _ => 0) (inputEnv seekInput.bytes) s'.table r.retLabel 2 := by
  obtain ⟨h, hr, hd, hrun⟩ := seekOps_run
  obtain ⟨r, s', hrun, hret⟩ := hrun .seekCur
  obtain ⟨hseek, hlabel, hreach, _⟩ := dfswLseek_spec Z3.idle_lawful hr rfl hd hrun hret
  refine ⟨h, s', r, hr, hd, hrun, hret, ?_⟩
  rw [hlabel, hreach.isOffset hr hd.label.2]
  intro hpos
  have hbase := (hd.pos_iff hseek).1 hpos
  cases hbase

/-- From the start of the file the label is the position. -/
theorem lseek_label_from_start :
    ∃ h s' r, Steps (TableStep .idle) .initial seekOps h ∧
      dfswLseek .idle (fun _ => 0) seekInput { fd := 3, size := 3 } seekFile 3 1 .seekSet 2 0
        (.start seekInput h.table) = .ok r s' ∧
      IsOffset .idle (fun _ => 0) (inputEnv seekInput.bytes) s'.table r.retLabel 1 ∧
      NewHold (inputEnv seekInput.bytes) (.start seekInput h.table) s' := by
  obtain ⟨h, hr, hd, hrun⟩ := seekOps_run
  obtain ⟨r, s', hrun, hret⟩ := hrun .seekSet
  exact ⟨h, s', r, hr, hrun,
    (lseek_label_iff Z3.idle_lawful hr rfl hd hrun hret).2 rfl⟩

end Kirenenko
