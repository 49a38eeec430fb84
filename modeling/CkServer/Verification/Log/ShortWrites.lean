import CkServer.Model.FileUtil

/-! # Short writes

What the calls of `fwrite_unlocked` in the loop of `append` are passed and accept, and what
`append` counts of it. -/

namespace CkServer.FileUtil

/-! ## The calls of the loop -/

/-- A call of `fwrite_unlocked`: the bytes passed to it, how many of them it accepts, and whether it
reports an error. -/
structure Call where
  passed : List UInt8
  accepted : ℕ
  error : Bool
deriving DecidableEq

namespace Call

/-- The bytes that are accepted. -/
def taken (c : Call) : List UInt8 :=
  c.passed.take c.accepted

/-- The loop is left after the call. -/
def Breaks (c : Call) : Prop :=
  c.accepted ≠ c.passed.length ∧ c.error = true

instance (c : Call) : Decidable c.Breaks :=
  inferInstanceAs (Decidable (c.accepted ≠ c.passed.length ∧ c.error = true))

/-- How many bytes a sequence of calls accepts. -/
def total : List Call → ℕ
  | [] => 0
  | c :: cs => c.accepted + total cs

@[simp] theorem total_nil : total [] = 0 := rfl

@[simp] theorem total_cons (c : Call) (cs : List Call) : total (c :: cs) = c.accepted + total cs :=
  rfl

/-- How many of them the loop adds to `writen`. -/
def counted (cs : List Call) : ℕ :=
  total (cs.filter fun c => ¬c.Breaks)

theorem counted_cons_of_breaks {c : Call} (h : c.Breaks) (cs : List Call) :
    counted (c :: cs) = counted cs := by
  simp [counted, h]

theorem counted_cons_of_not_breaks {c : Call} (h : ¬c.Breaks) (cs : List Call) :
    counted (c :: cs) = c.accepted + counted cs := by
  simp [counted, h]

theorem counted_le_total (cs : List Call) : counted cs ≤ total cs := by
  induction cs with
  | nil => exact Nat.le_refl _
  | cons c cs ih =>
      by_cases h : c.Breaks
      · rw [counted_cons_of_breaks h, total_cons]
        omega
      · rw [counted_cons_of_not_breaks h, total_cons]
        omega

/-- All that is accepted is counted, if the calls that end the loop accept nothing. -/
theorem counted_eq_total_iff (cs : List Call) :
    counted cs = total cs ↔ ∀ c ∈ cs, c.Breaks → c.accepted = 0 := by
  induction cs with
  | nil => simp [counted]
  | cons c cs ih =>
      have hle := counted_le_total cs
      rw [List.forall_mem_cons, total_cons, ← ih]
      by_cases h : c.Breaks
      · rw [counted_cons_of_breaks h]
        simp only [h, forall_const]
        omega
      · rw [counted_cons_of_not_breaks h]
        simp only [h, false_implies, true_and]
        omega

end Call

variable {data : List UInt8} {w : Fwrite} {writes : List Fwrite} {writen : ℕ}

/-- The call with the rest of the data. -/
def call (data : List UInt8) (w : Fwrite) (writen : ℕ) : Call where
  passed := data.drop writen
  accepted := min w.count (data.length - writen)
  error := w.error

/-- The calls that the loop of `append` makes, in their order. -/
def calls (data : List UInt8) : List Fwrite → ℕ → List Call
  | [], _ => []
  | w :: writes, writen =>
      if writen = data.length then []
      else
        let c := call data w writen
        c :: if c.Breaks then [] else calls data writes (writen + c.accepted)

theorem breaks_call_iff :
    (call data w writen).Breaks ↔ w.count < data.length - writen ∧ w.error = true := by
  simp only [Call.Breaks, call, List.length_drop]
  refine and_congr_left fun _ => ?_
  omega

theorem accepted_call_le (data : List UInt8) (w : Fwrite) (h : writen ≤ data.length) :
    writen + (call data w writen).accepted ≤ data.length := by
  simp only [call]
  omega

theorem accepted_call_of_lt (h : w.count < data.length - writen) :
    (call data w writen).accepted = w.count :=
  Nat.min_eq_left (Nat.le_of_lt h)

/-- The call accepts the rest of the data. -/
theorem accepted_call_of_le (hle : writen ≤ data.length) (h : data.length - writen ≤ w.count) :
    writen + (call data w writen).accepted = data.length := by
  simp only [call]
  omega

theorem calls_of_whole (h : writen = data.length) : calls data writes writen = [] := by
  cases writes with
  | nil => rfl
  | cons w writes => exact if_pos h

theorem calls_of_breaks (h : writen ≠ data.length) (hb : (call data w writen).Breaks) :
    calls data (w :: writes) writen = [call data w writen] := by
  rw [calls, if_neg h]
  simp only [if_pos hb]

theorem calls_of_not_breaks (h : writen ≠ data.length) (hb : ¬(call data w writen).Breaks) :
    calls data (w :: writes) writen =
      call data w writen :: calls data writes (writen + (call data w writen).accepted) := by
  rw [calls, if_neg h]
  simp only [if_neg hb]

theorem write_of_whole (h : writen = data.length) :
    write data writes writen = some ([], writen) := by
  cases writes with
  | nil => exact if_pos h
  | cons w writes => exact if_pos h

theorem write_of_breaks (h : writen ≠ data.length) (hb : (call data w writen).Breaks) :
    write data (w :: writes) writen = some ((call data w writen).taken, writen) := by
  obtain ⟨hlt, herror⟩ := breaks_call_iff.mp hb
  rw [write, if_neg h]
  exact if_pos ⟨by omega, herror⟩

theorem write_of_not_breaks (h : writen ≠ data.length) (hb : ¬(call data w writen).Breaks) :
    write data (w :: writes) writen =
      (write data writes (writen + (call data w writen).accepted)).map
        fun (rest, writen') => ((call data w writen).taken ++ rest, writen') := by
  rw [breaks_call_iff] at hb
  rw [write, if_neg h]
  exact if_neg fun hbreak => hb ⟨by omega, hbreak.2⟩

/-- The loop ends when all of the data is accepted or a call breaks it. Then the file has what the
calls have accepted, and `writen` what is counted of it. -/
theorem write_eq (writes : List Fwrite) (hle : writen ≤ data.length) :
    write data writes writen =
      let cs := calls data writes writen
      if writen + Call.total cs = data.length ∨ ∃ c ∈ cs, c.Breaks then
        some (cs.flatMap Call.taken, writen + Call.counted cs)
      else none := by
  induction writes generalizing writen with
  | nil =>
      by_cases h : writen = data.length
      · simp [write, calls, h, Call.counted]
      · simp [write, calls, h]
  | cons w writes ih =>
      by_cases h : writen = data.length
      · rw [write_of_whole h, calls_of_whole h]
        simp [h, Call.counted]
      · by_cases hb : (call data w writen).Breaks
        · rw [write_of_breaks h hb, calls_of_breaks h hb]
          simp [hb, Call.counted]
        · rw [write_of_not_breaks h hb, calls_of_not_breaks h hb, ih (accepted_call_le data w hle)]
          simp only [Call.total_cons, Call.counted_cons_of_not_breaks hb, List.mem_cons,
            exists_eq_or_imp, hb, false_or, List.flatMap_cons, Nat.add_assoc]
          split <;> rfl

/-- Every call is passed what no earlier one has accepted. -/
theorem passed_of_calls {early late : List Call} {c : Call} (hle : writen ≤ data.length)
    (hcs : calls data writes writen = early ++ c :: late) :
    c.passed = data.drop (writen + Call.total early) ∧ c.accepted ≤ c.passed.length := by
  induction writes generalizing writen early with
  | nil => simp [calls] at hcs
  | cons w writes ih =>
      have hfirst : (call data w writen).passed = data.drop (writen + Call.total []) ∧
          (call data w writen).accepted ≤ (call data w writen).passed.length := by
        refine ⟨rfl, ?_⟩
        simp only [call, List.length_drop]
        exact Nat.min_le_right _ _
      by_cases h : writen = data.length
      · simp [calls_of_whole h] at hcs
      · by_cases hb : (call data w writen).Breaks
        · rw [calls_of_breaks h hb] at hcs
          cases early with
          | nil =>
              obtain ⟨rfl, -⟩ := List.cons.inj hcs
              exact hfirst
          | cons e early => simp at hcs
        · rw [calls_of_not_breaks h hb] at hcs
          cases early with
          | nil =>
              obtain ⟨rfl, -⟩ := List.cons.inj hcs
              exact hfirst
          | cons e early =>
              obtain ⟨rfl, hlate⟩ := List.cons.inj hcs
              rw [Call.total_cons, ← Nat.add_assoc]
              exact ih (accepted_call_le data w hle) hlate

/-- The accepted bytes are a prefix of the data. -/
theorem taken_calls (writes : List Fwrite) (hle : writen ≤ data.length) :
    (calls data writes writen).flatMap Call.taken =
        (data.drop writen).take (Call.total (calls data writes writen)) ∧
      writen + Call.total (calls data writes writen) ≤ data.length := by
  induction writes generalizing writen with
  | nil => simpa [calls] using hle
  | cons w writes ih =>
      by_cases h : writen = data.length
      · simpa [calls_of_whole h] using hle
      · have hpart := accepted_call_le data w hle
        by_cases hb : (call data w writen).Breaks
        · rw [calls_of_breaks h hb]
          simpa [Call.taken, call] using hpart
        · obtain ⟨htaken, hin⟩ := ih hpart
          rw [calls_of_not_breaks h hb, List.flatMap_cons, htaken, Call.total_cons, List.take_add,
            List.drop_drop]
          exact ⟨rfl, by omega⟩

/-! ## What decides the calls -/

/-- How many bytes a sequence of results stands for. -/
def asked : List Fwrite → ℕ
  | [] => 0
  | w :: writes => w.count + asked writes

@[simp] theorem asked_nil : asked [] = 0 := rfl

@[simp] theorem asked_cons (w : Fwrite) (writes : List Fwrite) :
    asked (w :: writes) = w.count + asked writes :=
  rfl

/-- The loop ends exactly when the results stand for all of the data, or one of them is an
error. -/
theorem ends_iff (writes : List Fwrite) (hle : writen ≤ data.length) :
    (writen + Call.total (calls data writes writen) = data.length ∨
        ∃ c ∈ calls data writes writen, c.Breaks) ↔
      data.length ≤ writen + asked writes ∨ ∃ w ∈ writes, w.error = true := by
  induction writes generalizing writen with
  | nil =>
      simp only [calls, Call.total_nil, asked_nil, List.not_mem_nil, false_and, exists_false,
        or_false]
      omega
  | cons w writes ih =>
      by_cases h : writen = data.length
      · exact iff_of_true (.inl (by rw [calls_of_whole h]; exact h)) (.inl (by omega))
      · by_cases hb : (call data w writen).Breaks
        · rw [calls_of_breaks h hb]
          exact iff_of_true (.inr ⟨_, List.mem_singleton_self _, hb⟩)
            (.inr ⟨w, List.mem_cons_self, (breaks_call_iff.mp hb).2⟩)
        · have hrest := ih (accepted_call_le data w hle)
          rw [calls_of_not_breaks h hb]
          simp only [Call.total_cons, List.mem_cons, exists_eq_or_imp, hb, false_or, asked_cons,
            ← Nat.add_assoc]
          refine hrest.trans ?_
          rw [breaks_call_iff, not_and] at hb
          -- the call is cut to the rest of the data, or it is no error
          by_cases hcut : w.count < data.length - writen
          · simp [accepted_call_of_lt hcut, hb hcut]
          · have hall := accepted_call_of_le hle (Nat.not_lt.mp hcut)
            exact iff_of_true (.inl (by omega)) (.inl (by omega))

/-- No call that is made reports an error together with a part of the bytes it is passed. -/
def FailsWhole (data : List UInt8) (writes : List Fwrite) (writen : ℕ) : Prop :=
  ∀ early w late, writes = early ++ w :: late → (∀ v ∈ early, v.error = false) →
    writen + asked early < data.length → w.error = true →
      w.count = 0 ∨ data.length ≤ writen + asked early + w.count

theorem failsWhole_of_le (h : data.length ≤ writen) : FailsWhole data writes writen :=
  fun early _ _ _ _ hlt _ => absurd hlt (by omega)

theorem failsWhole_cons (h : writen < data.length) :
    FailsWhole data (w :: writes) writen ↔
      (w.error = true → w.count = 0 ∨ data.length ≤ writen + w.count) ∧
        (w.error = false → FailsWhole data writes (writen + w.count)) := by
  constructor
  · intro hall
    refine ⟨fun herror => hall [] w writes rfl (by simp) h herror, ?_⟩
    intro hok early v late heq hearly hlt
    have := hall (w :: early) v late (congrArg (w :: ·) heq)
      (List.forall_mem_cons.mpr ⟨hok, hearly⟩)
    rw [asked_cons, ← Nat.add_assoc] at this
    exact this hlt
  · rintro ⟨hfirst, hrest⟩ early v late heq hearly hlt herror
    cases early with
    | nil =>
        obtain ⟨rfl, -⟩ := List.cons.inj heq
        exact hfirst herror
    | cons e early =>
        obtain ⟨rfl, hlate⟩ := List.cons.inj heq
        obtain ⟨hok, hearly⟩ := List.forall_mem_cons.mp hearly
        rw [asked_cons, ← Nat.add_assoc] at hlt ⊢
        exact hrest hok early v late hlate hearly hlt herror

/-- The calls that break the loop accept nothing, exactly when the errors come without a part of
the data. -/
theorem breaks_empty_iff (hle : writen ≤ data.length) :
    (∀ c ∈ calls data writes writen, c.Breaks → c.accepted = 0) ↔
      FailsWhole data writes writen := by
  induction writes generalizing writen with
  | nil => simp [calls, FailsWhole]
  | cons w writes ih =>
      by_cases h : writen = data.length
      · rw [calls_of_whole h]
        exact iff_of_true (by simp) (failsWhole_of_le (Nat.le_of_eq h.symm))
      · have hlt : writen < data.length := by omega
        have hrest := ih (accepted_call_le data w hle)
        rw [failsWhole_cons hlt]
        by_cases hb : (call data w writen).Breaks
        · obtain ⟨hpart, herror⟩ := breaks_call_iff.mp hb
          rw [calls_of_breaks h hb]
          simp only [List.mem_singleton, forall_eq, hb, forall_const, herror, reduceCtorEq,
            false_implies, and_true, accepted_call_of_lt hpart]
          omega
        · rw [calls_of_not_breaks h hb, List.forall_mem_cons, hrest]
          simp only [hb, false_implies, true_and]
          rw [breaks_call_iff, not_and] at hb
          by_cases hcut : w.count < data.length - writen
          · simp [accepted_call_of_lt hcut, hb hcut]
          · have hall := accepted_call_of_le hle (Nat.not_lt.mp hcut)
            exact iff_of_true (failsWhole_of_le (Nat.le_of_eq hall.symm))
              ⟨fun _ => .inr (by omega), fun _ => failsWhole_of_le (by omega)⟩

instance (data : List UInt8) (writes : List Fwrite) : Decidable (FailsWhole data writes 0) :=
  decidable_of_iff _ (breaks_empty_iff (Nat.zero_le data.length))

/-! ## What `append` counts -/

/-- `append` counts the accepted bytes, which are a prefix of the data. Every call is passed the
data after what the earlier ones have accepted, and only an error leaves some of the data out. -/
structure Accounted (f f' : FileUtil) (disk disk' : Disk) (data : List UInt8) (cs : List Call) :
    Prop where
  counted : f'.writtenBytes_ = f.writtenBytes_ + Call.total cs
  appended : disk' =
    Function.update disk f.file_ ((disk f.file_).map (· ++ cs.flatMap Call.taken))
  isPrefix : cs.flatMap Call.taken = data.take (Call.total cs) ∧ Call.total cs ≤ data.length
  once : ∀ early c late, cs = early ++ c :: late →
    c.passed = data.drop (Call.total early) ∧ c.accepted ≤ c.passed.length
  whole : Call.total cs = data.length ∨ ∃ c ∈ cs, c.error = true

theorem append_eq (f : FileUtil) (disk : Disk) (data : List UInt8) (writes : List Fwrite) :
    f.append disk data writes =
      let cs := calls data writes 0
      if data.length ≤ asked writes ∨ ∃ w ∈ writes, w.error = true then
        some ({ f with writtenBytes_ := f.writtenBytes_ + Call.counted cs },
          Function.update disk f.file_ ((disk f.file_).map (· ++ cs.flatMap Call.taken)))
      else none := by
  have hends := ends_iff writes (Nat.zero_le data.length)
  have hwrite := write_eq writes (Nat.zero_le data.length)
  rw [Nat.zero_add, Nat.zero_add] at hends
  simp only [Nat.zero_add, hends] at hwrite
  rw [append, hwrite]
  by_cases h : data.length ≤ asked writes ∨ ∃ w ∈ writes, w.error = true
  · simp only [if_pos h]
    rfl
  · simp only [if_neg h]
    rfl

/-- `append` returns when the results stand for all of the data or have an error. It accounts for
the bytes of the file exactly when no error comes together with a part of the data. -/
theorem accounted_iff_failsWhole (f : FileUtil) (disk : Disk) (data : List UInt8)
    (writes : List Fwrite) :
    ((f.append disk data writes).isSome = true ↔
        data.length ≤ asked writes ∨ ∃ w ∈ writes, w.error = true) ∧
      ∀ f' disk', f.append disk data writes = some (f', disk') →
        (Accounted f f' disk disk' data (calls data writes 0) ↔ FailsWhole data writes 0) := by
  have hzero := Nat.zero_le data.length
  have hends := ends_iff writes hzero
  obtain ⟨htaken, hin⟩ := taken_calls writes hzero
  rw [← breaks_empty_iff hzero, ← Call.counted_eq_total_iff, append_eq]
  by_cases hreturns : data.length ≤ asked writes ∨ ∃ w ∈ writes, w.error = true
  · refine ⟨by simp [hreturns], fun f' disk' h => ?_⟩
    obtain ⟨rfl, rfl⟩ := Prod.mk.inj (Option.some.inj ((if_pos hreturns).symm.trans h))
    constructor
    · intro haccounted
      have := haccounted.counted
      simp only at this
      omega
    · intro hcounted
      refine ⟨by simp only [hcounted], rfl, ⟨htaken, by omega⟩, fun early c late hcs => ?_, ?_⟩
      · have := passed_of_calls hzero hcs
        rwa [Nat.zero_add] at this
      · rw [Nat.zero_add] at hends
        obtain hall | ⟨c, hc, hbreaks⟩ := hends.mpr (by rwa [Nat.zero_add])
        · exact .inl hall
        · exact .inr ⟨c, hc, hbreaks.2⟩
  · exact ⟨by simp [hreturns], fun f' disk' h => by simp [hreturns] at h⟩

/-- Ten bytes in three calls, the second of which accepts nothing. -/
theorem accounted_short_writes :
    ∃ f' disk',
      append { file_ := [108] } (fun _ => some []) (List.replicate 10 97)
          [⟨3, false⟩, ⟨0, false⟩, ⟨7, false⟩] = some (f', disk') ∧
        Accounted { file_ := [108] } f' (fun _ => some []) disk' (List.replicate 10 97)
          (calls (List.replicate 10 97) [⟨3, false⟩, ⟨0, false⟩, ⟨7, false⟩] 0) ∧
        f'.writtenBytes_ = 10 :=
  ⟨_, _, rfl, ((accounted_iff_failsWhole _ _ _ _).2 _ _ rfl).mpr (by decide), by decide⟩

/-- The call that reports an error has put three bytes into the file, and they are not counted. -/
theorem not_accounted_part :
    ∃ f' disk',
      append { file_ := [108] } (fun _ => some []) (List.replicate 10 97) [⟨3, true⟩] =
          some (f', disk') ∧
        f'.writtenBytes_ = 0 ∧ disk' [108] = some [97, 97, 97] ∧
        ¬Accounted { file_ := [108] } f' (fun _ => some []) disk' (List.replicate 10 97)
          (calls (List.replicate 10 97) [⟨3, true⟩] 0) :=
  ⟨_, _, rfl, by decide, by decide, fun h => absurd h.counted (by decide)⟩

end CkServer.FileUtil
