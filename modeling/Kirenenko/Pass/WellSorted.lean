import Kirenenko.Pass.Agreement
import Kirenenko.Pass.NodeSort
import Kirenenko.Runtime.Denotes

namespace Kirenenko
set_option autoImplicit true

def taintedOperand (regs : List Slot) (w : Nat) (a : Operand) : Bool :=
  (readOperand regs w a).any fun x => x.label ≠ 0

/-- The instructions whose label, if they get one, has a term of the sort of their type. -/
def Instr.Sortable (regs : List Slot) : Instr → Prop
  | .input offset => (offset % 2 ^ 64).toNat % 2 ^ 32 < 2 ^ 30
  | .binary op w a b => taintedOperand regs w a ∨ taintedOperand regs w b →
      w = 1 → op = .And ∨ op = .Or ∨ op = .Xor
  | .cast op w w' a => taintedOperand regs w a → op.Sortable w w'
  | .icmp p w a b => taintedOperand regs w a ∨ taintedOperand regs w b →
      w = 1 → p = .eq ∨ p = .ne
  | .select _ _ _ _ => True

def ShadowEvent.Sortable (s : ShadowState) : ShadowEvent → Prop
  | .instr i => i.Sortable s.regs
  | _ => True

section
variable {z : Z3} {mem : Memory} {t t' : LabelTable} {s s' : ShadowState}

/-- Every labelled register has a term of the sort of its type. -/
def AllSorted (z : Z3) (mem : Memory) (s : ShadowState) : Prop :=
  ∀ r ∈ s.regs, r.label ≠ 0 → YieldsSort (typeSort r.width) (termOf z mem s.table r.label)

/-- The table after an instruction, and the label of its result. -/
structure LabelGrows (z : Z3) (mem : Memory) (t t' : LabelTable) (l : Nat) : Prop where
  inv : ∃ S, TableInv t' S
  grows : Extends t t'
  cached : WellCached z mem t → WellCached z mem t'
  label : l ≤ t'.lastLabel

structure RegsInv (z : Z3) (mem : Memory) (s : ShadowState) : Prop where
  inv : ∃ S, TableInv s.table S
  cached : WellCached z mem s.table
  regs : ∀ r ∈ s.regs, r.label ≤ s.table.lastLabel

theorem RegsInv.initial : RegsInv z mem .initial where
  inv := ⟨_, .initial⟩
  cached := .initial z mem
  regs _ h := by cases h

theorem RegsInv.ordered (h : RegsInv z mem s) : Ordered s.table := by
  obtain ⟨S, hS⟩ := h.inv
  exact hS.ordered

theorem RegsInv.push (h : RegsInv z mem s) (hg : LabelGrows z mem s.table t (sh.getD 0)) :
    RegsInv z mem (s.push w v (sh, t)) where
  inv := hg.inv
  cached := hg.cached h.cached
  regs r hr := by
    rcases List.mem_append.1 hr with hr | hr
    · exact Nat.le_trans (h.regs r hr) hg.grows.lastLabel
    · cases List.mem_singleton.1 hr
      exact hg.label

theorem allSorted_push (h : RegsInv z mem s) (hg : Extends s.table t) :
    AllSorted z mem (s.push w v (sh, t)) ↔ AllSorted z mem s ∧
      (sh.getD 0 ≠ 0 → YieldsSort (typeSort w) (termOf z mem t (sh.getD 0))) := by
  have hterm : ∀ r ∈ s.regs, termOf z mem t r.label = termOf z mem s.table r.label :=
    fun r hr => hg.termOf h.ordered (h.regs r hr)
  constructor
  · intro hall
    constructor
    · intro r hr hl
      rw [← hterm r hr]
      exact hall r (List.mem_append_left _ hr) hl
    · exact hall ⟨w, v, sh⟩ (List.mem_append_right _ List.mem_cons_self)
  · rintro ⟨hold, hnew⟩ r hr
    rcases List.mem_append.1 hr with hr | hr
    · intro hl
      change YieldsSort _ (termOf z mem t r.label)
      rw [hterm r hr]
      exact hold r hr hl
    · cases List.mem_singleton.1 hr
      exact hnew

theorem RegsInv.operand (h : RegsInv z mem s) (hr : readOperand s.regs w a = some x) :
    x.label ≤ s.table.lastLabel ∧ (taintedOperand s.regs w a = true ↔ x.label ≠ 0) ∧
      (AllSorted z mem s → Extends s.table t → x.label ≠ 0 →
        YieldsSort (typeSort w) (termOf z mem t x.label)) := by
  have ht : taintedOperand s.regs w a = true ↔ x.label ≠ 0 := by
    unfold taintedOperand
    rw [hr]
    exact decide_eq_true_iff
  rcases readOperand_ok hr with ⟨v, _, rfl⟩ | ⟨hx, hw⟩
  · exact ⟨Nat.zero_le _, ht, fun _ _ hl => absurd rfl hl⟩
  · refine ⟨h.regs x hx, ht, fun hall hg hl => ?_⟩
    rw [hg.termOf h.ordered (h.regs x hx), ← hw]
    exact hall x hx hl

theorem RegsInv.combine (h : RegsInv z mem s)
    (hr : combineShadows s.table v1 v2 op pos = .ok (sh, t)) (hp : pos.resultWidth ≤ 64)
    (hL : pos.op op ≠ Operators.Load.code) (hF : pos.op op ≠ Operators.fsize.code)
    (h1 : v1.getD 0 ≤ s.table.lastLabel) (h2 : v2.getD 0 ≤ s.table.lastLabel) :
    LabelGrows z mem s.table t (sh.getD 0) ∧
      ((v1.getD 0 = 0 ∧ v2.getD 0 = 0) ∧ sh.getD 0 = 0 ∨
        ¬(v1.getD 0 = 0 ∧ v2.getD 0 = 0) ∧ sh.getD 0 ≠ 0 ∧ termOf z mem t (sh.getD 0) =
          nodeTerm z mem t.key (canonical (pos.key v1 v2 op)) (termOf z mem t)) := by
  obtain ⟨S, hS⟩ := h.inv
  rcases combineShadows_ok hS hp hL hF h1 h2 hr with ⟨h0, hsh, rfl⟩ | ⟨h0, hsh, hret, hk⟩
  · refine ⟨⟨h.inv, .refl _, id, ?_⟩, .inl ⟨h0, hsh⟩⟩
    rw [hsh]
    exact Nat.zero_le _
  · refine ⟨⟨hret.inv, hret.grows, hret.cached z mem, hret.label⟩, .inr ⟨h0, hsh, ?_⟩⟩
    obtain ⟨S', hS'⟩ := hret.inv
    rw [termOf_eq hS'.ordered (Nat.pos_of_ne_zero hsh) hret.label, hk]

/-- Whether a labelled result is sorted is a matter of its record alone. -/
theorem sorted_result {A T Ok : Prop} {x node : Except Exn Term}
    (hc : A ∧ l = 0 ∨ ¬A ∧ l ≠ 0 ∧ x = node) (hT : T ↔ ¬A) (hnode : ¬A → (YieldsSort σ node ↔ Ok)) :
    (l ≠ 0 → YieldsSort σ x) ↔ (T → Ok) := by
  rcases hc with ⟨ha, rfl⟩ | ⟨ha, hl, rfl⟩
  · exact iff_of_true (fun h => absurd rfl h) fun ht => absurd ha (hT.1 ht)
  · rw [hT, hnode ha]
    exact ⟨fun h _ => h hl, fun h _ => h ha⟩

theorem byteTerm_sort : YieldsSort (.bv 8) (byteTerm o) ↔ o % 2 ^ 32 < 2 ^ 30 := by
  unfold byteTerm intSymbol
  by_cases ho : o % 2 ^ 32 < 2 ^ 30
  · rw [if_pos ho]
    rw [except_ok_bind]
    exact iff_of_true (yieldsSort_checked.2 rfl) ho
  · rw [if_neg ho]
    refine iff_of_false ?_ ho
    rintro ⟨e, he, _⟩
    cases he

/-- What an instruction does to the table, and when its result is sorted. -/
structure Labelled (z : Z3) (mem : Memory) (s : ShadowState) (i : Instr) (w : Nat)
    (sh : Option Nat) (t : LabelTable) : Prop where
  grows : LabelGrows z mem s.table t (sh.getD 0)
  sorted : AllSorted z mem s →
    ((sh.getD 0 ≠ 0 → YieldsSort (typeSort w) (termOf z mem t (sh.getD 0))) ↔ i.Sortable s.regs)

theorem RegsInv.input (h : RegsInv z mem s) (hr : dfsanCreateLabel s.table o = .ok (l, t)) :
    Labelled z mem s (.input o) 8 (some l) t := by
  obtain ⟨S, hS⟩ := h.inv
  rcases hS.dfsanCreateLabel o with ⟨_, he⟩ | ⟨hroom, info, hinfo, he⟩
  · rw [he] at hr
    cases hr
  rw [he] at hr
  cases hr
  have hinv := hS.create hroom hinfo.key
  have hg := extended_extends s.table info
  refine ⟨⟨⟨_, hinv⟩, hg, fun hc => ?_, Nat.le_refl _⟩, fun _ => ?_⟩
  · exact hc.grow hS.ordered hg fun _ _ => extended_expr hinfo.expr
  · have hlo : constOffset ≤ s.table.lastLabel + 1 := Nat.le_add_left _ _
    have hterm : termOf z mem (s.table.extended info) (s.table.lastLabel + 1) =
        ofZ3 (byteTerm (o % 2 ^ 64).toNat) := by
      rw [termOf_eq hinv.ordered hlo (Nat.le_refl _), extended_key_new, hinfo.key,
        nodeTerm_raw rfl]
    change (s.table.lastLabel + 1 ≠ 0 → YieldsSort (.bv 8)
      (termOf z mem (s.table.extended info) (s.table.lastLabel + 1))) ↔ _
    rw [hterm, yieldsSort_congr fun _ => ofZ3_eq_ok, byteTerm_sort]
    exact ⟨fun hs => hs (Nat.succ_ne_zero _), fun hs _ => hs⟩

theorem RegsInv.operands (h : RegsInv z mem s) (ha : readOperand s.regs w a = some x)
    (hb : readOperand s.regs w b = some y) :
    x.shadow.getD 0 ≤ s.table.lastLabel ∧ y.shadow.getD 0 ≤ s.table.lastLabel ∧
    (taintedOperand s.regs w a = true ∨ taintedOperand s.regs w b = true ↔
      ¬(x.shadow.getD 0 = 0 ∧ y.shadow.getD 0 = 0)) ∧
    (AllSorted z mem s → Extends s.table t →
      OperandsSorted (termOf z mem t) w (x.shadow.getD 0) (y.shadow.getD 0)) := by
  obtain ⟨hx, hxt, hxs⟩ := h.operand (t := t) ha
  obtain ⟨hy, hyt, hys⟩ := h.operand (t := t) hb
  refine ⟨hx, hy, ?_, ?_⟩
  · rw [hxt, hyt]
    exact not_and_or.symm
  · rintro hall hg l (rfl | rfl) hl
    · exact hxs hall hg hl
    · exact hys hall hg hl

theorem RegsInv.binary (h : RegsInv z mem s) (hz : z.Lawful) (hw : 1 ≤ w ∧ w ≤ 64)
    (ha : readOperand s.regs w a = some x) (hb : readOperand s.regs w b = some y)
    (hr : combineBinaryOperatorShadows s.table op w a b x y = .ok (sh, t)) :
    Labelled z mem s (.binary op w a b) w sh t := by
  obtain ⟨hx, hy, hT, hsorted⟩ := h.operands (t := t) ha hb
  unfold combineBinaryOperatorShadows binaryShadowOp at hr
  by_cases hnot : w = 1 ∧ op = .Xor ∧ (isConstantOne w b ∨ isConstantOne w a)
  · rw [if_pos hnot] at hr
    obtain ⟨rfl, rfl, _⟩ := hnot
    obtain ⟨hg, hc⟩ := h.combine hr hw.2 (by change Operators.Not.code ≠ _; decide)
      (by change Operators.Not.code ≠ _; decide) hx hy
    refine ⟨hg, fun hall => sorted_result hc hT fun hl => ?_⟩
    exact iff_of_true (not_sort (hsorted hall hg.grows) (not_and_or.1 hl)) fun _ => .inr (.inr rfl)
  · rw [if_neg hnot] at hr
    obtain ⟨_, _, hL, hF⟩ := op.opcode_common
    obtain ⟨hg, hc⟩ := h.combine hr hw.2 hL hF hx hy
    refine ⟨hg, fun hall => sorted_result hc hT fun _ => ?_⟩
    simp only [Position.key, Position.op, Position.size, Option.getD_some, width_mod hw]
    exact binary_sort hz hw (hsorted hall hg.grows)

theorem RegsInv.cast (h : RegsInv z mem s) (hw : 1 ≤ w ∧ w ≤ 64) (hw' : 1 ≤ w' ∧ w' ≤ 64)
    (hvalid : op.Valid w w') (ha : readOperand s.regs w a = some x)
    (hr : combineCastInstShadows s.table op w w' x = .ok (sh, t)) :
    Labelled z mem s (.cast op w w' a) w' sh t := by
  obtain ⟨hx, hxt, hxs⟩ := h.operand (t := t) ha
  obtain ⟨hL, hF⟩ := op.opcode_cast
  obtain ⟨hg, hc⟩ := h.combine hr hw'.2 hL hF hx (Nat.zero_le _)
  have hT : taintedOperand s.regs w a = true ↔
      ¬(x.shadow.getD 0 = 0 ∧ (none : Option Nat).getD 0 = 0) := by
    rw [hxt]
    exact not_congr ⟨fun he => ⟨he, rfl⟩, fun he => he.1⟩
  refine ⟨hg, fun hall => sorted_result hc hT fun hl => ?_⟩
  simp only [Position.key, Position.op, Position.size, Option.getD_none, width_mod hw']
  exact cast_sort hw hw'.1 hvalid (hxs hall hg.grows fun he => hl ⟨he, rfl⟩)

theorem RegsInv.icmp (h : RegsInv z mem s) (hz : z.Lawful) (hw : 1 ≤ w ∧ w ≤ 64)
    (ha : readOperand s.regs w a = some x) (hb : readOperand s.regs w b = some y)
    (hr : combineCmpInstShadows s.table p w x y = .ok (sh, t)) :
    Labelled z mem s (.icmp p w a b) 1 sh t := by
  obtain ⟨hx, hy, hT, hsorted⟩ := h.operands (t := t) ha hb
  obtain ⟨hg, hc⟩ := h.combine hr (by decide : (1 : Nat) ≤ 64) (cmpOp_common p).2.2.1
    (cmpOp_ne_fsize p) hx hy
  refine ⟨hg, fun hall => sorted_result hc hT fun _ => ?_⟩
  simp only [Position.key, Position.op, Position.size, Option.getD_some, width_mod hw]
  exact cmp_sort hz hw (hsorted hall hg.grows)

theorem RegsInv.select (h : RegsInv z mem s) (ha : readOperand s.regs w a = some x)
    (hb : readOperand s.regs w b = some y) (c : Operand) (k : Slot) :
    Labelled z mem s (.select w c a b) w (selectShadow k x y) s.table := by
  obtain ⟨hx, _, hxs⟩ := h.operand (t := s.table) ha
  obtain ⟨hy, _, hys⟩ := h.operand (t := s.table) hb
  have hsh := selectShadow_label k x y
  by_cases hk : k.value = 1
  · rw [if_pos hk] at hsh
    refine ⟨⟨h.inv, .refl _, id, hsh ▸ hx⟩, fun hall => iff_of_true ?_ trivial⟩
    rw [hsh]
    exact hxs hall (.refl _)
  · rw [if_neg hk] at hsh
    refine ⟨⟨h.inv, .refl _, id, hsh ▸ hy⟩, fun hall => iff_of_true ?_ trivial⟩
    rw [hsh]
    exact hys hall (.refl _)

theorem RegsInv.exec {input : Int → UInt8} (h : RegsInv z mem s) (hz : z.Lawful)
    (hr : Executed input s i s') :
    ∃ w v sh t, s' = s.push w v (sh, t) ∧ Labelled z mem s i w sh t := by
  cases hr with
  | input hc => exact ⟨_, _, _, _, rfl, h.input hc⟩
  | binary hw hx hy hv hc => exact ⟨_, _, _, _, rfl, h.binary hz hw hx hy hc⟩
  | cast hw hw' hvalid hx hc => exact ⟨_, _, _, _, rfl, h.cast hw hw' hvalid hx hc⟩
  | icmp hw hx hy hc => exact ⟨_, _, _, _, rfl, h.icmp hz hw hx hy hc⟩
  | select hw hx hy => exact ⟨_, _, _, _, rfl, h.select hx hy _ _⟩

theorem RegsInv.sameKeys (h : RegsInv z mem s) (hs : SameKeys s.table t)
    (hc : WellCached z mem t) : RegsInv z mem { s with table := t } where
  inv := by
    obtain ⟨S, hS⟩ := h.inv
    exact ⟨S, hS.sameKeys hs⟩
  cached := hc
  regs r hr := Nat.le_trans (h.regs r hr) hs.extends.lastLabel

theorem RegsInv.allSorted_sameKeys (h : RegsInv z mem s) (hs : SameKeys s.table t) :
    AllSorted z mem { s with table := t } ↔ AllSorted z mem s := by
  unfold AllSorted
  refine forall_congr' fun r => forall_congr' fun hr => ?_
  change (r.label ≠ 0 → YieldsSort _ (termOf z mem t r.label)) ↔ _
  rw [hs.extends.termOf h.ordered (h.regs r hr)]

/-- Each event keeps the invariant, and all registers stay sorted exactly if it is sortable. -/
theorem RegsInv.step {input : Int → UInt8} (h : RegsInv z mem s) (hz : z.Lawful)
    (hr : ShadowStep z mem input s a s') :
    RegsInv z mem s' ∧ (AllSorted z mem s' ↔ AllSorted z mem s ∧ a.Sortable s) := by
  obtain ⟨S, hS⟩ := h.inv
  cases hr with
  | instr hr =>
    obtain ⟨w, v, sh, t, rfl, hl⟩ := h.exec hz (execInstr_ok hr)
    refine ⟨h.push hl.grows, ?_⟩
    rw [allSorted_push h hl.grows.grows]
    exact and_congr_right hl.sorted
  | serialize hl =>
    refine ⟨h.sameKeys (serialize_sameKeys hS hl) (h.cached.serialize hS.ordered hl), ?_⟩
    rw [h.allSorted_sameKeys (serialize_sameKeys hS hl)]
    exact (and_iff_left trivial).symm
  | flip hl =>
    refine ⟨h.sameKeys (flip_sameKeys _ _) (h.cached.flip hS.ordered _), ?_⟩
    rw [h.allSorted_sameKeys (flip_sameKeys _ _)]
    exact (and_iff_left trivial).symm

end

/-- What the solver part needs of a label whose type has `w` bits: serialization returns a term
of the sort of the type, so that a branch condition can be compared with its outcome. -/
def SerializesSorted (z : Z3) (mem : Memory) (t : LabelTable) (l w : Nat) : Prop :=
  ∀ deps, ∃ e deps' t', serialize z mem (l + 1) l deps t = .ok (e, deps') t' ∧
    e.sort = some (typeSort w) ∧ (w = 1 → ∀ r, (Term.distinct e (.boolVal r)).sort = some .bool)

theorem serializesSorted_iff (ho : Ordered t) (hc : WellCached z mem t) (hl : l ≤ t.lastLabel) :
    SerializesSorted z mem t l w ↔ YieldsSort (typeSort w) (termOf z mem t l) := by
  constructor
  · intro h
    obtain ⟨e, deps', t', hs, hsort, _⟩ := h ∅
    exact ⟨e, (Coherent.serialize hc ho hl).1 ⟨deps', t', hs⟩, hsort⟩
  · rintro ⟨e, he, hsort⟩ deps
    obtain ⟨deps', t', hs⟩ := (Coherent.serialize hc ho hl).2 he
    refine ⟨e, deps', t', hs, hsort, ?_⟩
    rintro rfl r
    exact Term.sort_distinct hsort rfl

/-- The shadows of all values of a program serialize to terms of the sorts of their types exactly
if every instruction that it executes is sortable. -/
theorem shadows_serialize_sorted {z : Z3} {mem : Memory} {input : Int → UInt8} {s : ShadowState}
    (hz : z.Lawful) (hrun : Steps (ShadowStep z mem input) .initial as s) :
    (∀ slot ∈ s.regs, slot.label ≠ 0 → SerializesSorted z mem s.table slot.label slot.width) ↔
      Steps (fun s a s' => ShadowStep z mem input s a s' ∧ a.Sortable s) .initial as s := by
  have hkeep : ∀ s a s', RegsInv z mem s → ShadowStep z mem input s a s' → RegsInv z mem s' :=
    fun _ _ _ h hr => (h.step hz hr).1
  have hstep : ∀ s a s', RegsInv z mem s → ShadowStep z mem input s a s' →
      (AllSorted z mem s' ↔ AllSorted z mem s ∧ a.Sortable s) :=
    fun _ _ _ h hr => (h.step hz hr).2
  have hinv := hrun.invariant hkeep .initial
  have hiff := hrun.iff_each hkeep hstep .initial
  have hstart : AllSorted z mem .initial := fun _ h => by cases h
  rw [and_iff_right hstart] at hiff
  rw [← hiff]
  refine forall_congr' fun r => forall_congr' fun hr => imp_congr_right fun _ => ?_
  exact serializesSorted_iff hinv.ordered hinv.cached (hinv.regs r hr)

/-- A byte is compared with 10 and the outcome is inverted. -/
theorem shadows_serialize_sorted_compare :
    ∃ s, Steps (ShadowStep .idle (fun _ => 0) fun _ => 7) .initial
        [.instr (.input 4), .instr (.icmp .ult 8 (.reg 0) (.const 10)),
          .instr (.binary .Xor 1 (.reg 1) (.const 1))] s ∧
      (∃ slot ∈ s.regs, slot.label = 3) ∧
      ∀ slot ∈ s.regs, slot.label ≠ 0 →
        SerializesSorted .idle (fun _ => 0) s.table slot.label slot.width := by
  have hrun : Steps (ShadowStep .idle (fun _ => 0) fun _ => 7) .initial
      [.instr (.input 4), .instr (.icmp .ult 8 (.reg 0) (.const 10)),
        .instr (.binary .Xor 1 (.reg 1) (.const 1))] _ :=
    .cons (.instr rfl) (.cons (.instr rfl) (.cons (.instr rfl) .nil))
  refine ⟨_, hrun, ⟨_, List.mem_of_getElem? (i := 2) rfl, rfl⟩, ?_⟩
  apply (shadows_serialize_sorted Z3.idle_lawful hrun).2
  refine .cons ⟨.instr rfl, ?_⟩ (.cons ⟨.instr rfl, ?_⟩ (.cons ⟨.instr rfl, ?_⟩ .nil))
  · change 4 < 2 ^ 30
    decide
  · exact fun _ h => absurd h (by decide)
  · exact fun _ _ => .inr (.inr rfl)

/-- The lowest bit of a byte is a vector of one bit, which cannot be compared with the outcome of
a branch; a byte used as a pointer has no term. -/
theorem shadow_serializes_unsorted :
    (∃ s, Steps (ShadowStep .idle (fun _ => 0) fun _ => 7) .initial
        [.instr (.input 4), .instr (.cast .Trunc 8 1 (.reg 0))] s ∧
      s.regs[1]? = some ⟨1, 1, some 2⟩ ∧
      ¬SerializesSorted .idle (fun _ => 0) s.table 2 1) ∧
    (∃ s, Steps (ShadowStep .idle (fun _ => 0) fun _ => 7) .initial
        [.instr (.input 4), .instr (.cast .IntToPtr 8 64 (.reg 0))] s ∧
      s.regs[1]? = some ⟨64, 7, some 2⟩ ∧
      ¬SerializesSorted .idle (fun _ => 0) s.table 2 64) := by
  refine ⟨⟨_, .cons (.instr rfl) (.cons (.instr rfl) .nil), rfl, ?_⟩,
    ⟨_, .cons (.instr rfl) (.cons (.instr rfl) .nil), rfl, ?_⟩⟩
  · intro h
    obtain ⟨e, deps, t, hs, hsort, _⟩ := h ∅
    cases hs
    cases hsort
  · intro h
    obtain ⟨e, deps, t, hs, _⟩ := h ∅
    cases hs

end Kirenenko
