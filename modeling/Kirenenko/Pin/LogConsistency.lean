import Mathlib.Algebra.Order.BigOperators.Group.List
import Mathlib.Order.Interval.Finset.Nat
import Kirenenko.Pin.LogRecords

namespace Kirenenko
set_option autoImplicit true

def addLabel (labels : List UInt32) (lb : UInt32) : List UInt32 :=
  if lb ≠ 0 ∧ lb ∉ labels then labels ++ [lb] else labels

/-- The labels that get a record, in the order of their first use. -/
def savedLabels (lbs : List UInt32) : List UInt32 := lbs.foldl addLabel []

theorem savedLabels_snoc (lbs : List UInt32) (lb : UInt32) :
    savedLabels (lbs ++ [lb]) = addLabel (savedLabels lbs) lb := by
  rw [savedLabels, List.foldl_append]
  rfl

theorem mem_addLabel : a ∈ addLabel labels lb ↔ a ∈ labels ∨ a ≠ 0 ∧ a = lb := by
  unfold addLabel
  split
  case isTrue h =>
    rw [List.mem_append, List.mem_singleton]
    grind
  case isFalse h => grind

theorem mem_savedLabels : a ∈ savedLabels lbs ↔ a ≠ 0 ∧ a ∈ lbs := by
  induction lbs using List.reverseRecOn with
  | nil => simp [savedLabels]
  | append_singleton lbs lb ih =>
    rw [savedLabels_snoc, mem_addLabel, ih, List.mem_append, List.mem_singleton, and_or_left]

theorem nodup_savedLabels (lbs : List UInt32) : (savedLabels lbs).Nodup := by
  induction lbs using List.reverseRecOn with
  | nil => exact .nil
  | append_singleton lbs lb ih =>
    rw [savedLabels_snoc, addLabel]
    split
    case isTrue h =>
      apply ih.append (List.nodup_singleton lb)
      intro a ha hlb
      rw [List.mem_singleton.1 hlb] at ha
      exact h.2 ha
    case isFalse => exact ih

/-- There are fewer than `2 ^ 32` labels, so that their counter does not wrap around. -/
theorem length_savedLabels (lbs : List UInt32) : (savedLabels lbs).length < 2 ^ 32 := by
  have hnodup : ((savedLabels lbs).map UInt32.toNat).Nodup :=
    (nodup_savedLabels lbs).map fun _ _ h => UInt32.toNat_inj.1 h
  have hsub : ((savedLabels lbs).map UInt32.toNat).toFinset ⊆ Finset.Ico 1 (2 ^ 32) := by
    intro n hn
    obtain ⟨lb, hlb, rfl⟩ := List.mem_map.1 (List.mem_toFinset.1 hn)
    have hzero : lb.toNat ≠ 0 := fun h => (mem_savedLabels.1 hlb).1 (UInt32.toNat_inj.1 h)
    exact Finset.mem_Ico.2 ⟨by omega, lb.toNat_lt⟩
  have hcard := Finset.card_le_card hsub
  rw [List.toFinset_card_of_nodup hnodup, List.length_map, Nat.card_Ico] at hcard
  omega

section
variable (api : TagApi) {g g' : Logger}

/-- The buffer of the tags, its counter and the set of labels after the tags of some labels have
been saved. -/
structure TagsLogged (g : Logger) (lbs : List UInt32) : Prop where
  sound : g.tagBuf.Sound
  content : g.tagBuf.content = (savedLabels lbs).flatMap fun lb => (tagPushes api lb).flatten
  count : g.numTag = .ofNat (savedLabels lbs).length
  set : ∀ lb, lb ∈ g.lbSet ↔ lb ∈ savedLabels lbs

/-- A label that is new can be written. -/
def TagsFit (g : Logger) (lb : UInt32) : Prop :=
  lb > 0 ∧ lb ∉ g.lbSet → g.tagBuf.FitsAll (tagPushes api lb)

instance (g : Logger) (lb : UInt32) : Decidable (TagsFit api g lb) :=
  inferInstanceAs (Decidable (_ → _))

/-- What saving a tag does not touch. -/
def Logger.rest (g : Logger) : UInt32 × UInt32 × LogBuf × LogBuf × (UInt64 → Option UInt32) :=
  (g.numCond, g.numMb, g.condBuf, g.mbBuf, g.orderMap)

theorem saveTag_new (hlen : api.hasLenLb lb = false) (hnew : lb > 0 ∧ lb ∉ g.lbSet) :
    g.saveTag api lb =
      (fun b => { g with tagBuf := b, numTag := g.numTag + 1, lbSet := insert lb g.lbSet }) <$>
        (tagPushes api lb).foldlM LogBuf.push g.tagBuf := by
  simp only [Logger.saveTag, hlen, hnew, tagPushes, pushBytes_eq_push, TagApi.segments,
    List.foldlM_cons, List.foldlM_nil]
  simp

theorem TagsLogged.saveTag (h : TagsLogged api g lbs) (hlen : api.hasLenLb lb = false)
    (hfit : TagsFit api g lb) :
    ∃ g', g.saveTag api lb = .ok g' ∧ TagsLogged api g' (lbs ++ [lb]) ∧ g'.rest = g.rest := by
  by_cases hnew : lb > 0 ∧ lb ∉ g.lbSet
  · have hadd : savedLabels (lbs ++ [lb]) = savedLabels lbs ++ [lb] := by
      rw [savedLabels_snoc, addLabel, if_pos]
      exact ⟨UInt32.pos_iff_ne_zero.1 hnew.1, fun hm => hnew.2 ((h.set lb).2 hm)⟩
    obtain ⟨b, hok, hb, hcontent⟩ := h.sound.pushes (hfit hnew)
    rw [saveTag_new api hlen hnew, hok]
    refine ⟨_, rfl, ⟨hb, ?_, ?_, ?_⟩, rfl⟩
    · rw [hadd, hcontent, h.content, List.flatMap_append, List.flatMap_singleton]
    · rw [hadd, List.length_append, UInt32.ofNat_add, h.count]
      rfl
    · intro a
      rw [hadd, Finset.mem_insert, List.mem_append, List.mem_singleton, h.set, or_comm]
  · have hsame : savedLabels (lbs ++ [lb]) = savedLabels lbs := by
      rw [savedLabels_snoc, addLabel, if_neg]
      rintro ⟨hzero, hnot⟩
      exact hnew ⟨UInt32.pos_iff_ne_zero.2 hzero, fun hm => hnot ((h.set lb).1 hm)⟩
    refine ⟨g, ?_, ⟨h.sound, ?_, ?_, ?_⟩, rfl⟩
    · rw [Logger.saveTag, hlen]
      exact if_neg hnew
    · rw [hsame, h.content]
    · rw [hsame, h.count]
    · rw [hsame]
      exact h.set

/-- The buffer of the statements and their counter. -/
structure CondsLogged (g : Logger) (es : List LogEntry) : Prop where
  sound : g.condBuf.Sound
  content : g.condBuf.content = es.flatMap fun e => e.stmt.bytes
  count : g.numCond = .ofNat es.length

/-- The record of the strings of an entry that has the index `i`. -/
def LogEntry.mb (i : Nat) (e : LogEntry) : Option MbRecord :=
  e.fn.map fun fn =>
    { index := .ofNat i
      arg1 := comparedString fn.size (fn.arg1.getD [])
      arg2 := comparedString fn.size (fn.arg2.getD []) }

def mbRecords (es : List LogEntry) : List MbRecord :=
  es.zipIdx.filterMap fun x => x.1.mb x.2

/-- The buffer of the magic bytes and its counter. -/
structure MbsLogged (g : Logger) (es : List LogEntry) : Prop where
  sound : g.mbBuf.Sound
  content : g.mbBuf.content = (mbRecords es).flatMap fun r => r.pushes.flatten
  count : g.numMb = .ofNat (mbRecords es).length

theorem mbRecords_snoc (es : List LogEntry) (e : LogEntry) :
    mbRecords (es ++ [e]) = mbRecords es ++ (e.mb es.length).toList := by
  rw [mbRecords, List.zipIdx_append, List.filterMap_append]
  simp only [List.zipIdx_singleton, Nat.zero_add]
  cases he : e.mb es.length <;> simp [he, mbRecords]

theorem saveCond_eq (g : Logger) (cond : CondStmt) :
    g.saveCond api cond = do
      let g' ← [cond.lb1, cond.lb2].foldlM (Logger.saveTag api)
        { g with numCond := g.numCond + 1 }
      let b ← g'.condBuf.push cond.bytes
      return (g.numCond, { g' with condBuf := b }) := by
  simp [Logger.saveCond]

theorem CondsLogged.fits (h : CondsLogged g es) (hlen : es.length < 2 ^ 32) (stmt : CondStmt) :
    g.condBuf.Fits stmt.bytes.length := by
  have hsize : g.condBuf.len = es.length * 56 := by
    rw [← g.condBuf.length_content, h.content, List.length_flatMap]
    simp only [CondStmt.length_bytes, List.map_const', List.sum_replicate_nat]
  apply h.sound.fits_small
  · rw [CondStmt.length_bytes]
    decide
  · omega

theorem CondsLogged.read (h : CondsLogged g es) :
    records readCond g.condBuf.content = some (es.map LogEntry.stmt) := by
  rw [h.content]
  apply records_flatMap
  intro e _
  refine ⟨reads_cond e.stmt, ?_⟩
  rw [← List.length_pos_iff, CondStmt.length_bytes]
  decide

theorem argLen_eq (size : UInt32) (arg : List UInt8) :
    argLen size (some arg) = .ofNat (comparedString size arg).length := by
  unfold argLen comparedString
  by_cases hsize : size = 0
  · rw [if_pos hsize, if_pos hsize]
    rfl
  · rw [if_neg hsize, if_neg hsize, List.length_map, List.length_range, UInt32.ofNat_toNat]

theorem range_map_argLen (size : UInt32) (arg : List UInt8)
    (h : (comparedString size arg).length < 2 ^ 32) :
    (List.range (argLen size (some arg)).toNat).map (bytesAt arg) = comparedString size arg := by
  rw [argLen_eq, UInt32.toNat_ofNat_of_lt' h]
  unfold comparedString
  by_cases hsize : size = 0
  · have hprefix := List.takeWhile_prefix (· ≠ (0 : UInt8)) (l := arg)
    rw [if_pos hsize, range_map_take arg hprefix.length_le]
    exact (List.prefix_iff_eq_take.1 hprefix).symm
  · rw [if_neg hsize, List.length_map, List.length_range]

/-- The arguments are strings whose lengths fit into 32 bits. -/
def FnArgs.Strings (fn : FnArgs) (a1 a2 : List UInt8) : Prop :=
  fn.arg1 = some a1 ∧ fn.arg2 = some a2 ∧ (comparedString fn.size a1).length < 2 ^ 32 ∧
    (comparedString fn.size a2).length < 2 ^ 32

instance (fn : FnArgs) : Decidable (∃ a1 a2, fn.Strings a1 a2) :=
  decidable_of_iff (∃ a1 ∈ fn.arg1, ∃ a2 ∈ fn.arg2,
      (comparedString fn.size a1).length < 2 ^ 32 ∧ (comparedString fn.size a2).length < 2 ^ 32)
    ⟨fun ⟨a1, h1, a2, h2, h⟩ => ⟨a1, a2, h1, h2, h⟩, fun ⟨a1, a2, h1, h2, h⟩ => ⟨a1, h1, a2, h2, h⟩⟩

/-- Only a string comparison has the operator of one, and its arguments are strings. -/
structure LogEntry.Plain (e : LogEntry) : Prop where
  op : e.stmt.op = condFnOp → e.fn.isSome
  strings : ∀ fn ∈ e.fn, ∃ a1 a2, fn.Strings a1 a2

instance (e : LogEntry) : Decidable e.Plain :=
  decidable_of_iff ((e.stmt.op = condFnOp → e.fn.isSome) ∧ ∀ fn ∈ e.fn, ∃ a1 a2, fn.Strings a1 a2)
    ⟨fun h => ⟨h.1, h.2⟩, fun h => ⟨h.1, h.2⟩⟩

/-- What it takes for an entry to be saved as it should: the counter does not wrap around, the
labels and the strings fit into their buffers, the statement is plain, and that of a string
comparison is not the first one. -/
structure EntryOk (g : Logger) (e : LogEntry) : Prop where
  count : g.numCond + 1 ≠ 0
  tags : EachRun (Logger.saveTag api) (TagsFit api) { g with numCond := g.numCond + 1 }
    [e.stmt.lb1, e.stmt.lb2]
  plain : e.Plain
  first : e.fn.isSome → g.numCond ≠ 0
  fits : ∀ r ∈ e.mb g.numCond.toNat, g.mbBuf.FitsAll r.pushes

instance (g : Logger) (e : LogEntry) : Decidable (EntryOk api g e) :=
  decidable_of_iff (g.numCond + 1 ≠ 0 ∧ EachRun (Logger.saveTag api) (TagsFit api)
      { g with numCond := g.numCond + 1 } [e.stmt.lb1, e.stmt.lb2] ∧ e.Plain ∧
      (e.fn.isSome → g.numCond ≠ 0) ∧ ∀ r ∈ e.mb g.numCond.toNat, g.mbBuf.FitsAll r.pushes)
    ⟨fun ⟨h1, h2, h3, h4, h5⟩ => ⟨h1, h2, h3, h4, h5⟩,
      fun ⟨h1, h2, h3, h4, h5⟩ => ⟨h1, h2, h3, h4, h5⟩⟩

def LogEntry.Unmasked (e : LogEntry) : Prop :=
  api.hasLenLb e.stmt.lb1 = false ∧ api.hasLenLb e.stmt.lb2 = false

def entryLabels (es : List LogEntry) : List UInt32 := es.flatMap fun e => [e.stmt.lb1, e.stmt.lb2]

/-- The three buffers and their counters hold exactly the entries. -/
structure Logged (g : Logger) (es : List LogEntry) : Prop where
  length : es.length < 2 ^ 32
  plain : ∀ e ∈ es, e.Plain
  conds : CondsLogged g es
  tags : TagsLogged api g (entryLabels es)
  mbs : MbsLogged g es

theorem saveMb_eq (g : Logger) {i : UInt32} (hi : i > 0) {fn : FnArgs} (h : fn.Strings a1 a2) :
    g.saveMb i (argLen fn.size fn.arg1) (argLen fn.size fn.arg2) fn.arg1 fn.arg2 =
      (fun b => { g with mbBuf := b, numMb := g.numMb + 1 }) <$>
        (MbRecord.pushes ⟨i, comparedString fn.size a1, comparedString fn.size a2⟩).foldlM
          LogBuf.push g.mbBuf := by
  obtain ⟨h1, h2, hlen1, hlen2⟩ := h
  rw [h1, h2]
  simp only [Logger.saveMb, hi, Option.map_some, pushBytes_eq_push, range_map_argLen _ _ hlen1,
    range_map_argLen _ _ hlen2, MbRecord.pushes, List.foldlM_cons, List.foldlM_nil]
  simp [argLen_eq]

theorem Logged.saveCond (h : Logged api g es) {e : LogEntry} (hok : EntryOk api g e)
    (hmask : e.Unmasked api) :
    ∃ g', g.saveCond api e.stmt = .ok (g.numCond, g') ∧ CondsLogged g' (es ++ [e]) ∧
      TagsLogged api g' (entryLabels (es ++ [e])) ∧ g'.mbBuf = g.mbBuf ∧ g'.numMb = g.numMb ∧
      g'.orderMap = g.orderMap := by
  have hstart : TagsLogged api { g with numCond := g.numCond + 1 } (entryLabels es) :=
    ⟨h.tags.sound, h.tags.content, h.tags.count, h.tags.set⟩
  have hmasks : ∀ lb ∈ [e.stmt.lb1, e.stmt.lb2], api.hasLenLb lb = false := by
    simp [hmask.1, hmask.2]
  have hstep : ∀ (g₁ : Logger) (lbs : List UInt32) (lb : UInt32),
      TagsLogged api g₁ lbs ∧ g₁.rest = (g.numCond + 1, g.rest.2) →
      TagsFit api g₁ lb ∧ api.hasLenLb lb = false → ∃ g₂, g₁.saveTag api lb = .ok g₂ ∧
        TagsLogged api g₂ (lbs ++ [lb]) ∧ g₂.rest = (g.numCond + 1, g.rest.2) := by
    rintro g₁ lbs lb ⟨htags, hrest⟩ ⟨hfit, hlen⟩
    obtain ⟨g₂, hsave, htags₂, hrest₂⟩ := htags.saveTag api hlen hfit
    exact ⟨g₂, hsave, htags₂, hrest₂.trans hrest⟩
  obtain ⟨g₁, hrun, htags, hrest⟩ := foldlM_history (Logger.saveTag api) hstep ⟨hstart, rfl⟩
    (hok.tags.and _ (EachRun.of_forall _ hmasks))
  simp only [Logger.rest, Prod.mk.injEq] at hrest
  obtain ⟨hcond, hmb, hbuf, hmbuf, horder⟩ := hrest
  have hfit := h.conds.fits h.length e.stmt
  obtain ⟨b, hpush, hb, -, hcontent⟩ := h.conds.sound.push hfit
  refine ⟨{ g₁ with condBuf := b }, ?_, ⟨hb, ?_, ?_⟩, ?_, hmbuf, hmb, horder⟩
  · rw [saveCond_eq, hrun, except_ok_bind, hbuf, hpush]
    rfl
  · rw [List.flatMap_append, List.flatMap_singleton, ← h.conds.content]
    exact hcontent
  · rw [List.length_append, UInt32.ofNat_add, ← h.conds.count]
    exact hcond
  · rw [entryLabels, List.flatMap_append, List.flatMap_singleton]
    exact ⟨htags.sound, htags.content, htags.count, htags.set⟩

theorem Logged.length_snoc (h : Logged api g es) (hcount : g.numCond + 1 ≠ 0) (e : LogEntry) :
    (es ++ [e]).length < 2 ^ 32 := by
  have hnat : g.numCond.toNat = es.length := by
    rw [h.conds.count, UInt32.toNat_ofNat_of_lt' h.length]
  have hwrap : g.numCond.toNat + 1 ≠ 2 ^ 32 := by
    intro hwrap
    apply hcount
    apply UInt32.toNat_inj.1
    rw [UInt32.toNat_add, UInt32.toNat_one, hwrap]
    rfl
  have hlt := h.length
  rw [List.length_append, List.length_singleton]
  omega

theorem Logged.plain_snoc (h : Logged api g es) {e : LogEntry} (he : e.Plain) :
    ∀ e' ∈ es ++ [e], e'.Plain := by
  intro e' he'
  rcases List.mem_append.1 he' with he' | he'
  · exact h.plain e' he'
  · rw [List.mem_singleton.1 he']
    exact he

theorem MbsLogged.snoc_none (h : MbsLogged g es) {e : LogEntry} (hfn : e.fn = none)
    (hbuf : g'.mbBuf = g.mbBuf) (hnum : g'.numMb = g.numMb) : MbsLogged g' (es ++ [e]) := by
  have hmb : mbRecords (es ++ [e]) = mbRecords es := by
    rw [mbRecords_snoc, LogEntry.mb, hfn]
    exact List.append_nil _
  obtain ⟨hsound, hcontent, hcount⟩ := h
  rw [← hbuf] at hsound hcontent
  rw [← hnum] at hcount
  rw [← hmb] at hcontent hcount
  exact ⟨hsound, hcontent, hcount⟩

theorem MbsLogged.snoc_some (h : MbsLogged g es) {e : LogEntry} (hr : e.mb es.length = some r)
    (hbuf : g'.mbBuf.Sound ∧ g'.mbBuf.content = g.mbBuf.content ++ r.pushes.flatten)
    (hnum : g'.numMb = g.numMb + 1) : MbsLogged g' (es ++ [e]) := by
  have hmb : mbRecords (es ++ [e]) = mbRecords es ++ [r] := by
    rw [mbRecords_snoc, hr, Option.toList_some]
  refine ⟨hbuf.1, ?_, ?_⟩
  · rw [hmb, List.flatMap_append, List.flatMap_singleton, ← h.content]
    exact hbuf.2
  · rw [hmb, List.length_append, UInt32.ofNat_add, ← h.count]
    exact hnum

theorem Logged.saveEntry (h : Logged api g es) {e : LogEntry} (hok : EntryOk api g e)
    (hmask : e.Unmasked api) :
    ∃ g', g.saveEntry api e = .ok g' ∧ Logged api g' (es ++ [e]) ∧ g'.orderMap = g.orderMap := by
  obtain ⟨g₁, hcond, hconds, htags, hbuf, hnum, horder⟩ := h.saveCond api hok hmask
  have hnat : g.numCond.toNat = es.length := by
    rw [h.conds.count, UInt32.toNat_ofNat_of_lt' h.length]
  have hlength := h.length_snoc api hok.count e
  have hplain := h.plain_snoc api hok.plain
  rw [Logger.saveEntry, hcond]
  cases hfn : e.fn with
  | none =>
    exact ⟨g₁, rfl, ⟨hlength, hplain, hconds, htags, h.mbs.snoc_none hfn hbuf hnum⟩, horder⟩
  | some fn =>
    obtain ⟨a1, a2, hstrings⟩ := hok.plain.strings fn hfn
    have hpos : g.numCond > 0 := UInt32.pos_iff_ne_zero.2 (hok.first (by rw [hfn]; rfl))
    have hr : e.mb es.length =
        some ⟨g.numCond, comparedString fn.size a1, comparedString fn.size a2⟩ := by
      rw [LogEntry.mb, hfn, Option.map_some, h.conds.count, hstrings.1, hstrings.2.1]
      rfl
    obtain ⟨b, hpush, hb, hcontent⟩ := h.mbs.sound.pushes (hok.fits _ (by rw [hnat]; exact hr))
    have hmb := saveMb_eq g₁ hpos hstrings
    rw [hbuf, hpush] at hmb
    refine ⟨_, hmb, ⟨hlength, hplain, ?_, ?_, ?_⟩, horder⟩
    · exact ⟨hconds.sound, hconds.content, hconds.count⟩
    · exact ⟨htags.sound, htags.content, htags.count, htags.set⟩
    · exact h.mbs.snoc_some hr ⟨hb, hcontent⟩ (congrArg (· + 1) hnum)

/-- The handlers clear the length mask before they save a label. -/
theorem entries_unmasked (ctr : UInt32) (c : HandlerCall) :
    ∀ e ∈ c.entries api ctr, e.Unmasked api := by
  have h0 := api.zero_hasLen
  have h1 := api.one_hasLen
  have hclear := api.clear_hasLen
  cases c with
  | cmp cid ctx size op arg1 arg2 cond t1 t2 =>
    intro e he
    rcases List.mem_append.1 he with he | he
    · obtain ⟨-, he⟩ := List.mem_ite_nil_right.1 he
      rw [List.mem_singleton.1 he]
      exact ⟨h0, h1⟩
    · obtain ⟨-, he⟩ := List.mem_ite_nil_right.1 he
      rw [List.mem_singleton.1 he]
      cases hlen : api.hasLenLb t1 || api.hasLenLb t2 with
      | true => exact ⟨hclear t1, hclear t2⟩
      | false => exact ⟨(Bool.or_eq_false_iff.1 hlen).1, (Bool.or_eq_false_iff.1 hlen).2⟩
  | sw cid ctx size cond num args t =>
    intro e he
    obtain ⟨-, he⟩ := List.mem_ite_nil_right.1 he
    obtain ⟨i, -, rfl⟩ := List.mem_map.1 he
    exact ⟨hclear t, h0⟩
  | fn cid ctx size arg1 arg2 t1 t2 =>
    intro e he
    obtain ⟨-, he⟩ := List.mem_ite_nil_right.1 he
    split at he
    · rw [List.mem_singleton.1 he]
      exact ⟨hclear t1, h0⟩
    · obtain ⟨-, he⟩ := List.mem_ite_nil_right.1 he
      rw [List.mem_singleton.1 he]
      exact ⟨h0, hclear t2⟩
  | exploit cid ctx size op val t =>
    intro e he
    obtain ⟨-, he⟩ := List.mem_ite_nil_right.1 he
    rw [List.mem_singleton.1 he]
    exact ⟨hclear t, h0⟩

/-- What it takes for a call to log its entries: it does not crash, and each of the entries can be
saved as it should. -/
def CallOk (g : Logger) (c : HandlerCall) : Prop :=
  ¬c.Crashes ∧ EachRun (Logger.saveEntry api) (EntryOk api) (g.getOrder c.cid c.ctx).2
    (c.entries api (g.getOrder c.cid c.ctx).1)

instance (g : Logger) (c : HandlerCall) : Decidable (CallOk api g c) :=
  inferInstanceAs (Decidable (_ ∧ _))

theorem Logged.getOrder (h : Logged api g es) (cid ctx : UInt32) :
    Logged api (g.getOrder cid ctx).2 es := by
  rw [getOrder_map]
  obtain ⟨hlength, hplain, hconds, htags, hmbs⟩ := h
  exact ⟨hlength, hplain, ⟨hconds.1, hconds.2, hconds.3⟩, ⟨htags.1, htags.2, htags.3, htags.4⟩,
    ⟨hmbs.1, hmbs.2, hmbs.3⟩⟩

theorem Logged.handle (h : Logged api g (logged api calls)) (hcount : Counted g calls)
    (hok : CallOk api g c) :
    ∃ g', handle api g c = .ok g' ∧ Logged api g' (logged api (calls ++ [c])) ∧
      Counted g' (calls ++ [c]) := by
  obtain ⟨hcrash, heach⟩ := hok
  have hmask := entries_unmasked api (g.getOrder c.cid c.ctx).1 c
  have hstep : ∀ (g₁ : Logger) (es : List LogEntry) (e : LogEntry),
      Logged api g₁ es ∧ Counted g₁ (calls ++ [c]) → EntryOk api g₁ e ∧ e.Unmasked api →
      ∃ g₂, g₁.saveEntry api e = .ok g₂ ∧ Logged api g₂ (es ++ [e]) ∧
        Counted g₂ (calls ++ [c]) := by
    rintro g₁ es e ⟨hlog, hcnt⟩ ⟨hentry, hunmasked⟩
    obtain ⟨g₂, hsave, hlog₂, horder⟩ := hlog.saveEntry api hentry hunmasked
    refine ⟨g₂, hsave, hlog₂, ?_⟩
    intro cid ctx
    rw [horder]
    exact hcnt cid ctx
  obtain ⟨g', hrun, hlog, hcnt⟩ := foldlM_history (Logger.saveEntry api) hstep
    ⟨h.getOrder api c.cid c.ctx, hcount.getOrder c⟩
    (heach.and _ (EachRun.of_forall _ hmask))
  rw [handle_eq, if_neg hcrash]
  rw [hcount.order] at hlog
  rw [logged_snoc]
  exact ⟨g', hrun, hlog, hcnt⟩

theorem Logged.new (fresh : Nat → UInt8) : Logged api (.new fresh) [] where
  length := by decide
  plain e he := by cases he
  conds := ⟨.new fresh, rfl, rfl⟩
  tags := ⟨.new fresh, rfl, rfl, fun lb => by simp [Logger.new, savedLabels, entryLabels]⟩
  mbs := ⟨.new fresh, rfl, rfl⟩

theorem Counted.new (fresh : Nat → UInt8) : Counted (.new fresh) [] := by
  intro cid ctx
  rfl

theorem length_segments (lb : UInt32) : (tagPushes api lb).flatten.length =
    8 + (api.segments lb).length := by
  simp [tagPushes, u32Bytes]
  omega

/-- The buffer of the tags never overflows if the segments of every label fit into the initial
capacity. -/
theorem TagsLogged.fits (h : TagsLogged api g lbs)
    (hsegs : ∀ lb, (api.segments lb).length ≤ bufLen) (lb : UInt32) : TagsFit api g lb := by
  intro _
  have hsize : ∀ lb, (tagPushes api lb).flatten.length ≤ 8 + bufLen := by
    intro lb
    have hle := hsegs lb
    rw [length_segments]
    omega
  have hlen : g.tagBuf.len ≤ (savedLabels lbs).length * (8 + bufLen) := by
    rw [← g.tagBuf.length_content, h.content, List.length_flatMap]
    have hsum := List.sum_le_card_nsmul
      ((savedLabels lbs).map fun lb => (tagPushes api lb).flatten.length) (8 + bufLen) ?_
    · simpa using hsum
    · intro n hn
      obtain ⟨lb, -, rfl⟩ := List.mem_map.1 hn
      exact hsize lb
  have hcount := length_savedLabels lbs
  apply h.sound.fitsAll_small
  · have hle := hsegs lb
    simp [tagPushes, u32Bytes, hle]
    decide
  · have hle := hsize lb
    have hbuf : bufLen = 131072 := rfl
    rw [hbuf] at hlen hle
    omega

theorem Logged.entryOk (h : Logged api g es) (hlen : es.length + 1 < 2 ^ 32)
    (hsegs : ∀ lb, (api.segments lb).length ≤ bufLen) (hmask : e.Unmasked api)
    (hop : e.stmt.op ≠ condFnOp) (hfn : e.fn = none) : EntryOk api g e where
  count := by
    intro hwrap
    have hnat := congrArg UInt32.toNat hwrap
    rw [UInt32.toNat_add, h.conds.count, UInt32.toNat_ofNat_of_lt' h.length] at hnat
    simp at hnat
    omega
  tags := by
    have hmasks : ∀ lb ∈ [e.stmt.lb1, e.stmt.lb2], api.hasLenLb lb = false := by
      simp [hmask.1, hmask.2]
    apply EachRun.imp (I := fun g => ∃ lbs, TagsLogged api g lbs)
      (C := fun _ lb => api.hasLenLb lb = false) _ _ _ _ (EachRun.of_forall _ hmasks)
    · rintro g lb ⟨lbs, htags⟩ _
      exact htags.fits api hsegs lb
    · rintro g lb g' ⟨lbs, htags⟩ hlb hsave
      obtain ⟨g₁, hsave₁, htags₁, -⟩ := htags.saveTag api hlb (htags.fits api hsegs lb)
      cases hsave.symm.trans hsave₁
      exact ⟨_, htags₁⟩
    · exact ⟨_, h.tags.sound, h.tags.content, h.tags.count, h.tags.set⟩
  plain := ⟨fun h => (hop h).elim, fun fn h => by rw [hfn] at h; cases h⟩
  first hsome := by
    rw [hfn] at hsome
    cases hsome
  fits r hr := by
    rw [LogEntry.mb, hfn] at hr
    cases hr

theorem Logged.entriesOk (h : Logged api g es) (hlen : es.length + entries.length < 2 ^ 32)
    (hsegs : ∀ lb, (api.segments lb).length ≤ bufLen) (hmask : ∀ e ∈ entries, e.Unmasked api)
    (hop : ∀ e ∈ entries, e.stmt.op ≠ condFnOp ∧ e.fn = none) :
    EachRun (Logger.saveEntry api) (EntryOk api) g entries := by
  induction entries generalizing g es with
  | nil => exact trivial
  | cons e entries ih =>
    rw [List.length_cons] at hlen
    have hmem : e ∈ e :: entries := List.mem_cons_self
    have hok := h.entryOk api (by omega) hsegs (hmask e hmem) (hop e hmem).1 (hop e hmem).2
    refine ⟨hok, fun g' hsave => ?_⟩
    obtain ⟨g₁, hsave₁, hlog, -⟩ := h.saveEntry api hok (hmask e hmem)
    cases hsave.symm.trans hsave₁
    apply ih hlog
    · rw [List.length_append, List.length_singleton]
      omega
    · exact fun e he => hmask e (List.mem_cons_of_mem _ he)
    · exact fun e he => hop e (List.mem_cons_of_mem _ he)

/-- The header and the three buffers fit together, and they tell of all the entries. -/
structure LogConsistent (g : Logger) (es : List LogEntry) (conds : List CondStmt)
    (tags : List TagRecord) (mbs : List MbRecord) : Prop where
  readConds : records readCond g.condBuf.content = some conds
  readTags : records (readTag api) g.tagBuf.content = some tags
  readMbs : records readMb g.mbBuf.content = some mbs
  numCond : g.numCond.toNat = conds.length
  numTag : g.numTag.toNat = tags.length
  numMb : g.numMb.toNat = mbs.length
  saved : conds = es.map LogEntry.stmt
  labels : ∀ s ∈ conds, ∀ lb ∈ [s.lb1, s.lb2], lb ≠ 0 → tags.countP (·.label = lb) = 1
  strings : ∀ k e, es[k]? = some e → e.stmt.op = condFnOp →
    ∃ fn a1 a2, e.fn = some fn ∧ fn.arg1 = some a1 ∧ fn.arg2 = some a2 ∧
      mbs.filter (·.index.toNat = k) =
        [⟨.ofNat k, comparedString fn.size a1, comparedString fn.size a2⟩]

theorem filter_mbRecords (es : List LogEntry) (hlen : es.length < 2 ^ 32) (k : Nat) :
    (mbRecords es).filter (·.index.toNat = k) = (es[k]?.bind fun e => e.mb k).toList := by
  induction es using List.reverseRecOn with
  | nil => rfl
  | append_singleton es e ih =>
    rw [List.length_append, List.length_singleton] at hlen
    have ih := ih (by omega)
    have hindex : ∀ r ∈ (e.mb es.length).toList, r.index.toNat = es.length := by
      intro r hr
      obtain ⟨fn, -, rfl⟩ := Option.map_eq_some_iff.1 (Option.mem_toList.1 hr)
      exact UInt32.toNat_ofNat_of_lt' (show es.length < 2 ^ 32 by omega)
    rw [mbRecords_snoc, List.filter_append, ih]
    by_cases hk : k = es.length
    · subst hk
      have hall : (e.mb es.length).toList.filter (·.index.toNat = es.length) =
          (e.mb es.length).toList :=
        List.filter_eq_self.2 fun r hr => decide_eq_true (hindex r hr)
      rw [hall]
      simp
    · have hnone : (e.mb es.length).toList.filter (·.index.toNat = k) = [] := by
        apply List.filter_eq_nil_iff.2
        intro r hr heq
        exact hk ((of_decide_eq_true heq).symm.trans (hindex r hr))
      rw [hnone, List.append_nil]
      grind

theorem Logged.reads_mbs (h : Logged api g es) :
    ∀ r ∈ mbRecords es, Reads readMb r.pushes.flatten (id r) := by
  intro r hr
  obtain ⟨⟨e, i⟩, hmem, hmb⟩ := List.mem_filterMap.1 hr
  obtain ⟨fn, hfn, rfl⟩ := Option.map_eq_some_iff.1 hmb
  have he : e ∈ es := List.fst_mem_of_mem_zipIdx hmem
  obtain ⟨a1, a2, h1, h2, hlen1, hlen2⟩ := (h.plain e he).strings fn hfn
  apply reads_mb
  · rw [h1]
    exact hlen1
  · rw [h2]
    exact hlen2

theorem Logged.numCond (h : Logged api g es) : g.numCond.toNat = es.length := by
  rw [h.conds.count, UInt32.toNat_ofNat_of_lt' h.length]

theorem Logged.numTag (h : Logged api g es) :
    g.numTag.toNat = (savedLabels (entryLabels es)).length := by
  rw [h.tags.count, UInt32.toNat_ofNat_of_lt' (length_savedLabels _)]

theorem Logged.numMb (h : Logged api g es) : g.numMb.toNat = (mbRecords es).length := by
  have hle : (mbRecords es).length ≤ es.zipIdx.length := List.length_filterMap_le _ _
  rw [List.length_zipIdx] at hle
  rw [h.mbs.count, UInt32.toNat_ofNat_of_lt' (Nat.lt_of_le_of_lt hle h.length)]

theorem Logged.consistent (h : Logged api g es) :
    LogConsistent api g es (es.map LogEntry.stmt)
      ((savedLabels (entryLabels es)).map (tagRecord api)) (mbRecords es) where
  readConds := h.conds.read
  readTags := by
    rw [h.tags.content]
    apply records_flatMap
    intro lb _
    refine ⟨reads_tag api lb, ?_⟩
    simp [tagPushes, u32Bytes, bytesOf]
  readMbs := by
    have hread : ∀ r ∈ mbRecords es, Reads readMb r.pushes.flatten (id r) ∧
        r.pushes.flatten ≠ [] := by
      intro r hr
      exact ⟨h.reads_mbs api r hr, by simp [MbRecord.pushes, u32Bytes, bytesOf]⟩
    rw [h.mbs.content, records_flatMap hread, List.map_id]
  numCond := by rw [h.numCond api, List.length_map]
  numTag := by rw [h.numTag api, List.length_map]
  numMb := h.numMb api
  saved := rfl
  labels := by
    intro s hs lb hlb hzero
    obtain ⟨e, he, rfl⟩ := List.mem_map.1 hs
    have hmem : lb ∈ savedLabels (entryLabels es) :=
      mem_savedLabels.2 ⟨hzero, List.mem_flatMap.2 ⟨e, he, hlb⟩⟩
    rw [List.countP_map, ← List.count_eq_one_of_mem (nodup_savedLabels _) hmem]
    apply List.countP_congr
    intro a _
    rw [beq_iff_eq]
    exact decide_eq_true_iff
  strings := by
    intro k e hk hop
    have hplain := h.plain e (List.mem_of_getElem? hk)
    obtain ⟨fn, hfn⟩ := Option.isSome_iff_exists.1 (hplain.op hop)
    obtain ⟨a1, a2, h1, h2, -⟩ := hplain.strings fn hfn
    refine ⟨fn, a1, a2, hfn, h1, h2, ?_⟩
    rw [filter_mbRecords es h.length, hk, Option.bind_some, LogEntry.mb, hfn, Option.map_some, h1,
      h2]
    rfl

/-- A reader that trusts the header reads the entries back. -/
theorem Logged.reads_file (h : Logged api g es) :
    Reads (readLog api) g.saveBuffers (es.map LogEntry.stmt,
      (savedLabels (entryLabels es)).map (tagRecord api), mbRecords es) := by
  have hconds := Reads.many (fun e (_ : e ∈ es) => reads_cond e.stmt) (h.numCond api)
  have htags := Reads.many (fun lb (_ : lb ∈ savedLabels (entryLabels es)) => reads_tag api lb)
    (h.numTag api)
  have hmbs := Reads.many (h.reads_mbs api) (h.numMb api)
  rw [List.map_id] at hmbs
  rw [Logger.saveBuffers, h.conds.content, h.tags.content, h.mbs.content]
  simp only [List.append_assoc]
  refine (Reads.u32 g.numCond).bind ((Reads.u32 g.numTag).bind ((Reads.u32 g.numMb).bind ?_))
  exact hconds.bind (htags.bind hmbs.map)

theorem logged_run (fresh : Nat → UInt8) {calls : List HandlerCall}
    (h : EachRun (handle api) (CallOk api) (.new fresh) calls) :
    ∃ g, calls.foldlM (handle api) (.new fresh) = .ok g ∧ Logged api g (logged api calls) := by
  have hstep : ∀ (g : Logger) (calls : List HandlerCall) (c : HandlerCall),
      Logged api g (logged api calls) ∧ Counted g calls → CallOk api g c →
      ∃ g', handle api g c = .ok g' ∧ Logged api g' (logged api (calls ++ [c])) ∧
        Counted g' (calls ++ [c]) :=
    fun g calls c hlog hok => hlog.1.handle api hlog.2 hok
  obtain ⟨g, hrun, hlog, -⟩ := foldlM_history (handle api) hstep
    ⟨Logged.new api fresh, Counted.new fresh⟩ h
  exact ⟨g, hrun, hlog⟩

/-- The file of a run whose calls meet the condition tells of all the entries. -/
theorem log_readable (fresh : Nat → UInt8) (calls : List HandlerCall)
    (h : EachRun (handle api) (CallOk api) (.new fresh) calls) :
    ∃ g, calls.foldlM (handle api) (.new fresh) = .ok g ∧
      readLog api g.saveBuffers = some (((logged api calls).map LogEntry.stmt,
        (savedLabels (entryLabels (logged api calls))).map (tagRecord api),
        mbRecords (logged api calls)), []) := by
  obtain ⟨g, hrun, hlog⟩ := logged_run api fresh h
  have hread := hlog.reads_file api []
  rw [List.append_nil] at hread
  exact ⟨g, hrun, hread⟩

/-- Whatever calls the program makes, if each meets the condition then the log is consistent. -/
theorem log_consistent (fresh : Nat → UInt8) (calls : List HandlerCall)
    (h : EachRun (handle api) (CallOk api) (.new fresh) calls) :
    ∃ g, calls.foldlM (handle api) (.new fresh) = .ok g ∧
      ∃ conds tags mbs, LogConsistent api g (logged api calls) conds tags mbs := by
  obtain ⟨g, hrun, hlog⟩ := logged_run api fresh h
  exact ⟨g, hrun, _, _, _, hlog.consistent api⟩

end

/-- Labels of 31 bits under the mask, each with one segment. -/
def maskedTags : TagApi where
  hasLenLb t := 2 ^ 31 ≤ t.toNat
  clearLenMask t := .ofNat (t.toNat % 2 ^ 31)
  tagIsEmpty t := t = 0
  tagSegSize := 12
  tagGet lb := [(Vector.replicate 12 0).set 4 lb.toUInt8]
  clear_hasLen t := by
    have hlt : t.toNat % 2 ^ 31 < 2 ^ 32 := by omega
    rw [UInt32.toNat_ofNat_of_lt' hlt]
    exact decide_eq_false (by omega)
  zero_hasLen := by decide
  one_hasLen := by decide

/-- A comparison of numbers with a label at its first operand. -/
def sampleCmp : HandlerCall := .cmp 7 0 4 32 65 66 0 2 0

/-- A comparison of strings with a label at its first argument. -/
def sampleFn : HandlerCall := .fn 8 0 2 (some [65, 66]) (some [65, 67]) 3 0

theorem log_consistent_sample :
    EachRun (handle maskedTags) (CallOk maskedTags) (.new fun _ => 0) [sampleCmp, sampleFn] ∧
      ∃ g, [sampleCmp, sampleFn].foldlM (handle maskedTags) (.new fun _ => 0) = .ok g ∧
        ∃ conds tags mbs,
          LogConsistent maskedTags g (logged maskedTags [sampleCmp, sampleFn]) conds tags mbs := by
  have h : EachRun (handle maskedTags) (CallOk maskedTags) (.new fun _ => 0)
      [sampleCmp, sampleFn] := by
    decide +kernel
  exact ⟨h, log_consistent maskedTags (fun _ => 0) [sampleCmp, sampleFn] h⟩

theorem log_readable_sample :
    EachRun (handle maskedTags) (CallOk maskedTags) (.new fun _ => 0) [sampleCmp, sampleFn] ∧
      ∃ g, [sampleCmp, sampleFn].foldlM (handle maskedTags) (.new fun _ => 0) = .ok g ∧
        readLog maskedTags g.saveBuffers =
          some (((logged maskedTags [sampleCmp, sampleFn]).map LogEntry.stmt,
            (savedLabels (entryLabels (logged maskedTags [sampleCmp, sampleFn]))).map
              (tagRecord maskedTags),
            mbRecords (logged maskedTags [sampleCmp, sampleFn])), []) := by
  have h : EachRun (handle maskedTags) (CallOk maskedTags) (.new fun _ => 0)
      [sampleCmp, sampleFn] := by
    decide +kernel
  exact ⟨h, log_readable maskedTags (fun _ => 0) [sampleCmp, sampleFn] h⟩

/-- The strings of a comparison that is the first to be saved are lost. -/
theorem first_comparison_lost :
    ∃ g, [sampleFn].foldlM (handle maskedTags) (.new fun _ => 0) = .ok g ∧
      ¬∃ conds tags mbs,
        LogConsistent maskedTags g (logged maskedTags [sampleFn]) conds tags mbs := by
  have hobs : ([sampleFn].foldlM (handle maskedTags) (.new fun _ => 0)).toOption.map
      (fun g => records readMb g.mbBuf.content) = some (some []) := by
    decide +kernel
  have hentry : (logged maskedTags [sampleFn])[0]?.map (·.stmt.op) = some condFnOp := by
    decide +kernel
  obtain ⟨g, hg, hmbs⟩ := Option.map_eq_some_iff.1 hobs
  obtain ⟨e, he, hop⟩ := Option.map_eq_some_iff.1 hentry
  refine ⟨g, ?_, ?_⟩
  · cases hrun : [sampleFn].foldlM (handle maskedTags) (.new fun _ => 0) with
    | error fault =>
      rw [hrun] at hg
      cases hg
    | ok g' =>
      rw [hrun] at hg
      cases hg
      rfl
  · rintro ⟨conds, tags, mbs, h⟩
    cases hmbs.symm.trans h.readMbs
    obtain ⟨fn, a1, a2, -, -, -, hfilter⟩ := h.strings 0 e he hop
    cases hfilter

end Kirenenko
