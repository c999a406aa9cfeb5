import Kirenenko.Runtime.SolverSpec

namespace Kirenenko
set_option autoImplicit true

/-- The file that `generate_input` leaves once it was opened. -/
def generatedFile (host : Host) (input : TaintedInput) (m : List ((Symbol × Nat) × Nat))
    (index : Nat) : List UInt8 :=
  if input.isStdin then [] else
    match host.copied index input.buf with
    | none => []
    | some f => (writeModel input.buf.length m f).1

/-- The state after `generate_input`, whether it returned or threw. -/
def SolverState.generated (host : Host) (input : TaintedInput) (m : List ((Symbol × Nat) × Nat))
    (s : SolverState) : SolverState :=
  { s with
    currentIndex := (s.currentIndex + 1) % 2 ^ 32
    files := if host.opens s.currentIndex then
      Function.update s.files s.currentIndex (some (generatedFile host input m s.currentIndex))
      else s.files }

theorem generateInput_final (host : Host) (input : TaintedInput)
    (m : List ((Symbol × Nat) × Nat)) (s : SolverState) :
    finalState (generateInput host input m s) = s.generated host input m := by
  have hnext : nextIndex s =
      .ok s.currentIndex { s with currentIndex := (s.currentIndex + 1) % 2 ^ 32 } := rfl
  unfold generateInput SolverState.generated generatedFile
  rw [estate_bind_ok hnext]
  cases hopen : host.opens s.currentIndex with
  | false => rfl
  | true =>
    cases hstdin : input.isStdin with
    | true => rfl
    | false =>
      cases hcopy : host.copied s.currentIndex input.buf with
      | none => rfl
      | some f =>
        dsimp only [Bool.not_true, Bool.false_eq_true, if_false, if_true]
        generalize writeModel input.buf.length m f = r
        obtain ⟨f', e⟩ := r
        cases e with
        | none => rfl
        | some e => rfl

/-- The value that a model gives to a symbol. -/
def modelValue (m : List ((Symbol × Nat) × Nat)) (name : Symbol) : Option Nat :=
  (m.find? fun c => c.1.1 = name).map (·.2)

theorem modelValue_cons (c : (Symbol × Nat) × Nat) (m : List ((Symbol × Nat) × Nat))
    (name : Symbol) :
    modelValue (c :: m) name = if c.1.1 = name then some c.2 else modelValue m name := by
  unfold modelValue
  rw [List.find?_cons]
  by_cases h : c.1.1 = name
  · simp only [h, decide_true, if_true, Option.map_some]
  · simp only [h, decide_false, if_false]

theorem modelValue_append (m m' : List ((Symbol × Nat) × Nat)) (name : Symbol) :
    modelValue (m ++ m') name = (modelValue m name).or (modelValue m' name) := by
  unfold modelValue
  rw [List.find?_append, Option.map_or]

theorem modelValue_eq_none : modelValue m name = none ↔ ∀ c ∈ m, c.1.1 ≠ name := by
  unfold modelValue
  simp only [Option.map_eq_none_iff, List.find?_eq_none, decide_eq_true_eq, ne_eq]

theorem modelValue_eq_some_mem (h : modelValue m name = some v) :
    ∃ w, ((name, w), v) ∈ m := by
  obtain ⟨⟨⟨name', w⟩, v'⟩, hfind, hv⟩ := Option.map_eq_some_iff.1 h
  have hname : name' = name := by simpa using List.find?_some hfind
  subst hname
  subst hv
  exact ⟨w, List.mem_of_find?_eq_some hfind⟩

/-- The models of an input with `size` bytes: values for bytes and perhaps for the size, each
listed once. -/
structure InputModel (size : Nat) (m : List ((Symbol × Nat) × Nat)) : Prop where
  distinct : (m.map (·.1.1)).Nodup
  bytes : ∀ c ∈ m, ∀ n, c.1.1 = .int n → n < size
  names : ∀ c ∈ m, ∀ name, c.1.1 = .str name → name = "fsize"

/-- The bytes of a model, written into a file that has them. -/
def writeBytes : List ((Symbol × Nat) × Nat) → List UInt8 → List UInt8
  | [], f => f
  | ((.int n, _), v) :: m, f => writeBytes m (f.set n (UInt8.ofNat v))
  | ((.str _, _), _) :: m, f => writeBytes m f

theorem writeAt_inside (h : off < f.length) : writeAt f off v = f.set off v := by
  unfold writeAt
  rw [Nat.sub_eq_zero_of_le h, List.replicate_zero, List.append_nil]

theorem writeBytes_length (m : List ((Symbol × Nat) × Nat)) (f : List UInt8) :
    (writeBytes m f).length = f.length := by
  induction m generalizing f with
  | nil => rfl
  | cons c m ih =>
    obtain ⟨⟨name, w⟩, v⟩ := c
    cases name with
    | int n => exact (ih _).trans (List.length_set ..)
    | str name => exact ih f

theorem writeModel_bytes (hpre : ∀ c ∈ pre, ∃ n < f.length, c.1.1 = .int n) :
    writeModel size (pre ++ post) f = writeModel size post (writeBytes pre f) := by
  induction pre generalizing f with
  | nil => rfl
  | cons c pre ih =>
    obtain ⟨⟨name, w⟩, v⟩ := c
    obtain ⟨n, hn, rfl⟩ := hpre _ List.mem_cons_self
    change writeModel size (pre ++ post) (writeAt f n (UInt8.ofNat v)) = _
    rw [writeAt_inside hn]
    apply ih
    intro c hc
    rw [List.length_set]
    exact hpre c (List.mem_cons_of_mem _ hc)

/-- Each byte is the one of the model, in whatever order that lists its constants. -/
theorem writeBytes_getElem? (hd : (m.map (·.1.1)).Nodup) (o : Nat) :
    (writeBytes m f)[o]? = f[o]?.map ((modelValue m (.int o)).elim · UInt8.ofNat) := by
  induction m generalizing f with
  | nil =>
    change f[o]? = f[o]?.map fun b => b
    rw [Option.map_id']
  | cons c m ih =>
    obtain ⟨⟨name, w⟩, v⟩ := c
    obtain ⟨hfresh, hrest⟩ := List.nodup_cons.1 hd
    rw [modelValue_cons]
    cases name with
    | str name => exact ih hrest
    | int n =>
      change (writeBytes m (f.set n (UInt8.ofNat v)))[o]? = _
      rw [ih hrest]
      by_cases ho : n = o
      · subst ho
        have hnone : modelValue m (.int n) = none := by
          apply modelValue_eq_none.2
          intro c hc he
          exact hfresh (List.mem_map.2 ⟨c, hc, he⟩)
        rw [hnone, if_pos rfl, List.getElem?_set_self']
        cases f[n]? <;> rfl
      · rw [List.getElem?_set_ne ho, if_neg (fun he => ho (Symbol.int.inj he))]

/-- The file a model asks for: its size and bytes are those of the model where that has them, and
those of the input elsewhere. -/
def MatchesModel (buf : List UInt8) (m : List ((Symbol × Nat) × Nat)) (f : List UInt8) : Prop :=
  f.length = (modelValue m (.str "fsize")).getD buf.length ∧
    ∀ o < f.length, f[o]? = some ((modelValue m (.int o)).elim (buf.getD o 0) UInt8.ofNat)

/-- A size in the model does not exceed the input, and the bytes listed after it are cut off or
are those of the input. -/
def SizeFits (buf : List UInt8) (m : List ((Symbol × Nat) × Nat)) : Prop :=
  ∀ pre w v post, m = pre ++ ((.str "fsize", w), v) :: post → v ≤ buf.length ∧
    ∀ n b, modelValue post (.int n) = some b → n < v → UInt8.ofNat b = buf.getD n 0

section
variable {buf : List UInt8} {m pre post : List ((Symbol × Nat) × Nat)}

theorem InputModel.ints (h : InputModel size m) (hsub : ∀ c ∈ pre, c ∈ m)
    (hno : ∀ c ∈ pre, c.1.1 ≠ .str "fsize") : ∀ c ∈ pre, ∃ n < size, c.1.1 = .int n := by
  intro c hc
  cases hname : c.1.1 with
  | int n => exact ⟨n, h.bytes c (hsub c hc) n hname, rfl⟩
  | str name =>
    refine absurd hname ?_
    rw [h.names c (hsub c hc) name hname]
    exact hno c hc

theorem getElem?_written (h : (m.map (·.1.1)).Nodup) (ho : o < buf.length) :
    (writeBytes m buf)[o]? = some ((modelValue m (.int o)).elim (buf.getD o 0) UInt8.ofNat) := by
  rw [writeBytes_getElem? h, List.getD_eq_getElem?_getD, List.getElem?_eq_getElem ho]
  rfl

theorem matchesModel_unsized (h : InputModel buf.length m)
    (hno : modelValue m (.str "fsize") = none) :
    MatchesModel buf m (writeModel buf.length m buf).1 := by
  have hints := h.ints (fun c hc => hc) (modelValue_eq_none.1 hno)
  have hw : writeModel buf.length (m ++ []) buf = _ := writeModel_bytes hints
  rw [List.append_nil] at hw
  rw [hw]
  unfold MatchesModel
  change (writeBytes m buf).length = _ ∧ ∀ o < (writeBytes m buf).length, (writeBytes m buf)[o]? = _
  rw [hno, writeBytes_length]
  exact ⟨rfl, fun o ho => getElem?_written h.distinct ho⟩

theorem modelValue_before (h : ((pre ++ post).map (·.1.1)).Nodup)
    (hc : ∃ c ∈ post, c.1.1 = name) : modelValue pre name = none := by
  obtain ⟨c, hc, hname⟩ := hc
  rw [List.map_append] at h
  apply modelValue_eq_none.2
  intro c' hc' hname'
  exact (List.nodup_append.1 h).2.2 _ (List.mem_map_of_mem hc') _ (List.mem_map_of_mem hc)
    (hname'.trans hname.symm)

theorem writeModel_sized (h : InputModel buf.length (pre ++ ((.str "fsize", w), v) :: post)) :
    (writeModel buf.length (pre ++ ((.str "fsize", w), v) :: post) buf).1 =
      if v ≥ 2 ^ 63 then writeBytes pre buf
      else if v > buf.length then writeAt (writeBytes pre buf) v 0
      else (writeBytes pre buf).take v := by
  have hno := modelValue_before h.distinct ⟨_, List.mem_cons_self, rfl⟩
  have hints := h.ints (fun c hc => List.mem_append_left _ hc) (modelValue_eq_none.1 hno)
  rw [writeModel_bytes hints]
  change (if "fsize" ≠ "fsize" then _ else if v ≥ 2 ^ 63 then _ else if v > buf.length then _
    else _ : List UInt8 × Option Z3Exception).1 = _
  rw [if_neg (not_not.2 rfl), apply_ite Prod.fst, apply_ite Prod.fst]

theorem writeAt_length (h : f.length ≤ off) : (writeAt f off v).length = off + 1 := by
  unfold writeAt
  rw [List.length_set, List.length_append, List.length_replicate]
  omega

theorem modelValue_size (h : InputModel n (pre ++ ((.str "fsize", w), v) :: post)) :
    modelValue (pre ++ ((.str "fsize", w), v) :: post) (.str "fsize") = some v := by
  rw [modelValue_append, modelValue_before h.distinct ⟨_, List.mem_cons_self, rfl⟩,
    modelValue_cons, if_pos rfl]
  rfl

theorem modelValue_byte (n : Nat) :
    modelValue (pre ++ ((.str "fsize", w), v) :: post) (.int n) =
      (modelValue pre (.int n)).or (modelValue post (.int n)) := by
  rw [modelValue_append, modelValue_cons, if_neg nofun]

theorem getElem?_shortened (h : InputModel buf.length (pre ++ ((.str "fsize", w), v) :: post))
    (hv : v ≤ buf.length) (ho : o < v) : ((writeBytes pre buf).take v)[o]? =
      some ((modelValue pre (.int o)).elim (buf.getD o 0) UInt8.ofNat) := by
  have hpre : (pre.map (·.1.1)).Nodup := by
    have hd := h.distinct
    rw [List.map_append] at hd
    exact (List.nodup_append.1 hd).1
  rw [List.getElem?_take_of_lt ho, getElem?_written hpre (by omega)]

theorem matchesModel_sized (hsize : buf.length < 2 ^ 63)
    (h : InputModel buf.length (pre ++ ((.str "fsize", w), v) :: post)) :
    MatchesModel buf (pre ++ ((.str "fsize", w), v) :: post)
        (writeModel buf.length (pre ++ ((.str "fsize", w), v) :: post) buf).1 ↔
      v ≤ buf.length ∧
        ∀ n b, modelValue post (.int n) = some b → n < v → UInt8.ofNat b = buf.getD n 0 := by
  unfold MatchesModel
  rw [modelValue_size h, writeModel_sized h]
  have hlen := writeBytes_length pre buf
  by_cases hbig : v ≥ 2 ^ 63
  · rw [if_pos hbig, hlen]
    constructor
    · intro hm
      have : buf.length = v := hm.1
      omega
    · intro hm
      omega
  by_cases hgrow : v > buf.length
  · rw [if_neg hbig, if_pos hgrow, writeAt_length (by omega)]
    constructor
    · intro hm
      have : v + 1 = v := hm.1
      omega
    · intro hm
      omega
  have hle : v ≤ buf.length := Nat.le_of_not_lt hgrow
  rw [if_neg hbig, if_neg hgrow, List.length_take, hlen, Nat.min_eq_left hle]
  constructor
  · rintro ⟨_, hm⟩
    refine ⟨hle, fun n b hb hn => ?_⟩
    obtain ⟨w', hmem⟩ := modelValue_eq_some_mem hb
    have hnone := modelValue_before h.distinct ⟨_, List.mem_cons_of_mem _ hmem, rfl⟩
    have he := (getElem?_shortened h hle hn).symm.trans (hm n hn)
    rw [modelValue_byte, hnone, hb] at he
    exact (Option.some.inj he).symm
  · rintro ⟨_, hpost⟩
    refine ⟨rfl, fun o ho => ?_⟩
    rw [getElem?_shortened h hle ho, modelValue_byte]
    cases hp : modelValue pre (.int o) with
    | some b => rfl
    | none =>
      cases hq : modelValue post (.int o) with
      | none => rfl
      | some b => exact congrArg some (hpost o b hq ho).symm

theorem matchesModel_iff (hsize : buf.length < 2 ^ 63) (h : InputModel buf.length m) :
    MatchesModel buf m (writeModel buf.length m buf).1 ↔ SizeFits buf m := by
  cases hv : modelValue m (.str "fsize") with
  | none =>
    constructor
    · intro _ pre w v post hm
      refine absurd rfl (modelValue_eq_none.1 hv ((.str "fsize", w), v) ?_)
      rw [hm]
      exact List.mem_append_right _ List.mem_cons_self
    · exact fun _ => matchesModel_unsized h hv
  | some v =>
    obtain ⟨w, hmem⟩ := modelValue_eq_some_mem hv
    obtain ⟨pre, post, rfl⟩ := List.append_of_mem hmem
    constructor
    · intro hfile pre' w' v' post' hm
      rw [hm] at h hfile
      exact (matchesModel_sized hsize h).1 hfile
    · intro hfits
      exact (matchesModel_sized hsize h).2 (hfits pre w v post rfl)

end

/-- When its file operations succeed, `generate_input` leaves the file its model asks for exactly
if a size in the model fits. -/
theorem generated_file_matches_model {host : Host} {input : TaintedInput} {s : SolverState}
    (hsize : input.buf.length < 2 ^ 63) (hm : InputModel input.buf.length m)
    (hfile : input.isStdin = false) (hopen : host.opens s.currentIndex = true)
    (hcopy : host.copies s.currentIndex = .full) :
    (∃ f, (finalState (generateInput host input m s)).files s.currentIndex = some f ∧
      MatchesModel input.buf m f) ↔ SizeFits input.buf m := by
  have hf : generatedFile host input m s.currentIndex =
      (writeModel input.buf.length m input.buf).1 := by
    unfold generatedFile Host.copied
    rw [hfile, hcopy]
    rfl
  have hfiles : (finalState (generateInput host input m s)).files s.currentIndex =
      some (writeModel input.buf.length m input.buf).1 := by
    rw [generateInput_final, ← hf]
    unfold SolverState.generated
    rw [hopen]
    exact Function.update_self ..
  rw [hfiles, ← matchesModel_iff hsize hm]
  constructor
  · rintro ⟨f, hf, hmatch⟩
    cases hf
    exact hmatch
  · exact fun hmatch => ⟨_, rfl, hmatch⟩

/-- A file of two bytes is cut after the first, which gets a new value. -/
theorem generated_file_matches_model_cut :
    ∃ f, (finalState (generateInput ⟨fun _ => true, fun _ => .full⟩ ⟨false, [5, 6]⟩
        [((.int 0, 8), 7), ((.str "fsize", 64), 1)] (.start ⟨false, [5, 6]⟩ .initial))).files 0 =
          some f ∧
      MatchesModel [5, 6] [((.int 0, 8), 7), ((.str "fsize", 64), 1)] f := by
  have hm : InputModel (TaintedInput.mk false [5, 6]).buf.length
      [((.int 0, 8), 7), ((.str "fsize", 64), 1)] := by
    refine ⟨by decide, ?_, ?_⟩
    · intro c hc n hn
      rcases List.mem_cons.1 hc with rfl | hc
      · cases hn
        decide
      · rw [List.mem_singleton.1 hc] at hn
        cases hn
    · intro c hc name hn
      rcases List.mem_cons.1 hc with rfl | hc
      · cases hn
      · rw [List.mem_singleton.1 hc] at hn
        exact (Symbol.str.inj hn).symm
  apply (generated_file_matches_model (by decide) hm rfl rfl rfl).2
  intro pre w v post he
  rcases List.cons_eq_append_iff.1 he with ⟨_, h⟩ | ⟨pre', rfl, h⟩
  · cases h
  · rcases List.cons_eq_append_iff.1 h with ⟨_, h⟩ | ⟨pre'', _, h⟩
    · cases h
      exact ⟨by decide, fun n b hb => by cases hb⟩
    · cases pre'' <;> cases h

/-- A model for a file of two bytes gives one of three; a byte listed after the size is not
written. -/
theorem generated_file_differs :
    InputModel 1 [((.str "fsize", 64), 2)] ∧
      (finalState (generateInput ⟨fun _ => true, fun _ => .full⟩ ⟨false, [5]⟩
        [((.str "fsize", 64), 2)] (.start ⟨false, [5]⟩ .initial))).files 0 = some [5, 0, 0] ∧
      ¬MatchesModel [5] [((.str "fsize", 64), 2)] [5, 0, 0] ∧
      (finalState (generateInput ⟨fun _ => true, fun _ => .full⟩ ⟨false, [5]⟩
        [((.str "fsize", 64), 1), ((.int 0, 8), 7)] (.start ⟨false, [5]⟩ .initial))).files 0 =
          some [5] ∧
      ¬MatchesModel [5] [((.str "fsize", 64), 1), ((.int 0, 8), 7)] [5] := by
  refine ⟨⟨by decide, ?_, ?_⟩, by decide +kernel, ?_, by decide +kernel, ?_⟩
  · intro c hc n hn
    rw [List.mem_singleton.1 hc] at hn
    cases hn
  · intro c hc name hn
    rw [List.mem_singleton.1 hc] at hn
    exact (Symbol.str.inj hn).symm
  · intro h
    have hlen : 3 = 2 := h.1
    cases hlen
  · intro h
    have hbyte := h.2 0 (by decide)
    exact absurd hbyte (by decide)

end Kirenenko
