import CkServer.Library.Search

/-! # Lines ended by CRLF

The first line of a byte string, and blocks of `name: value` lines closed by an empty
line. Reading a block undoes writing it. -/

namespace Lines

open Search

def crlf : List UInt8 := [13, 10]

/-- A text that no line break interrupts. -/
def Unbroken (text : List UInt8) : Prop := ¬ crlf <:+: text

instance (text : List UInt8) : Decidable (Unbroken text) :=
  inferInstanceAs (Decidable (¬ crlf <:+: text))

/-- The first line without its CRLF, and what follows the CRLF. -/
def splitLine? (bs : List UInt8) : Option (List UInt8 × List UInt8) :=
  (search? crlf bs).map fun i => (bs.take i, bs.drop (i + 2))

theorem unbroken_nil : Unbroken [] := by decide

theorem unbroken_of_not_mem {text : List UInt8} (h : 13 ∉ text) : Unbroken text := by
  intro hsub
  exact h (hsub.subset (by simp [crlf]))

theorem splitLine?_append {line : List UInt8} (h : Unbroken line) (rest : List UInt8) :
    splitLine? (line ++ crlf ++ rest) = some (line, rest) := by
  have hsearch : search? crlf (line ++ crlf ++ rest) = some line.length :=
    search?_pair_append (by decide) rest h
  have hdrop : (line ++ crlf ++ rest).drop (line.length + 2) = rest := by
    rw [← List.drop_drop, List.append_assoc, List.drop_left]
    rfl
  simp only [splitLine?, hsearch, Option.map_some, hdrop]
  rw [List.append_assoc, List.take_left]

/-- A line is found exactly where the bytes are an unbroken text, a CRLF and the rest. -/
theorem splitLine?_eq_some_iff {bs line rest : List UInt8} :
    splitLine? bs = some (line, rest) ↔ Unbroken line ∧ bs = line ++ crlf ++ rest := by
  constructor
  · intro h
    simp only [splitLine?, Option.map_eq_some_iff, Prod.mk.injEq] at h
    obtain ⟨i, hi, rfl, rfl⟩ := h
    exact ⟨not_infix_take_of_search? (by decide) hi, search?_some_split hi⟩
  · rintro ⟨hline, rfl⟩
    exact splitLine?_append hline rest

theorem splitLine?_eq_none_iff {bs : List UInt8} : splitLine? bs = none ↔ Unbroken bs := by
  rw [splitLine?, Option.map_eq_none_iff, search?_eq_none_iff, Unbroken]

/-- More input changes neither the first line nor the beginning of what follows it. -/
theorem splitLine?_more {bs line rest : List UInt8} (h : splitLine? bs = some (line, rest))
    (more : List UInt8) : splitLine? (bs ++ more) = some (line, rest ++ more) := by
  rw [splitLine?_eq_some_iff] at h ⊢
  refine ⟨h.1, ?_⟩
  rw [h.2, List.append_assoc]

theorem length_lt_of_splitLine? {bs line rest : List UInt8}
    (h : splitLine? bs = some (line, rest)) : rest.length < bs.length := by
  rw [(splitLine?_eq_some_iff.mp h).2]
  simp only [List.length_append, crlf, List.length_cons, List.length_nil]
  omega

/-! ## Field blocks -/

abbrev Field := List UInt8 × List UInt8

/-- A field that can be told apart in a block. -/
structure Field.Valid (field : Field) : Prop where
  name_no_colon : 58 ∉ field.1
  name_no_return : 13 ∉ field.1
  value_no_return : 13 ∉ field.2

def fieldLine (field : Field) : List UInt8 := field.1 ++ [58, 32] ++ field.2

/-- The fields, a line for each, and the empty line that closes them. -/
def fieldBlock (fields : List Field) : List UInt8 :=
  fields.flatMap (fun field => fieldLine field ++ crlf) ++ crlf

/-- The name before the first colon and the value after the colon and a space. -/
def readField? (line : List UInt8) : Option Field :=
  let colon := line.idxOf 58
  if [58, 32] <+: line.drop colon then some (line.take colon, line.drop (colon + 2)) else none

/-- Fields up to the empty line, and what follows it. Each line shortens the bytes, so their
number is fuel enough. -/
def readFields? : ℕ → List UInt8 → Option (List Field × List UInt8)
  | 0, _ => none
  | fuel + 1, bs => do
      let (line, rest) ← splitLine? bs
      if line = [] then
        some ([], rest)
      else
        let field ← readField? line
        let (fields, body) ← readFields? fuel rest
        some (field :: fields, body)

theorem fieldLine_ne_nil (field : Field) : fieldLine field ≠ [] := by simp [fieldLine]

theorem unbroken_fieldLine {field : Field} (h : field.Valid) : Unbroken (fieldLine field) := by
  apply unbroken_of_not_mem
  simp [fieldLine, h.name_no_return, h.value_no_return]

theorem readField?_fieldLine {field : Field} (h : field.Valid) :
    readField? (fieldLine field) = some field := by
  have hcolon : (fieldLine field).idxOf 58 = field.1.length := by
    rw [fieldLine, List.append_assoc, List.idxOf_append_of_notMem h.name_no_colon]
    simp
  have hdrop : (fieldLine field).drop field.1.length = [58, 32] ++ field.2 := by
    rw [fieldLine, List.append_assoc, List.drop_left]
  have hvalue : (fieldLine field).drop (field.1.length + 2) = field.2 := by
    rw [← List.drop_drop, hdrop]
    rfl
  have hname : (fieldLine field).take field.1.length = field.1 := by
    rw [fieldLine, List.append_assoc, List.take_left]
  simp only [readField?, hcolon, hdrop, hvalue, hname]
  rw [if_pos (List.prefix_append _ _)]

/-- Reading a block gives back its fields and leaves what follows it. -/
theorem readFields?_fieldBlock (body : List UInt8) :
    ∀ {fields : List Field} {fuel : ℕ}, (∀ field ∈ fields, field.Valid) →
      fields.length < fuel →
        readFields? fuel (fieldBlock fields ++ body) = some (fields, body) := by
  intro fields
  induction fields with
  | nil =>
      intro fuel _ hfuel
      obtain ⟨fuel, rfl⟩ := Nat.exists_eq_succ_of_ne_zero (by omega : fuel ≠ 0)
      have hsplit : splitLine? (fieldBlock [] ++ body) = some ([], body) :=
        splitLine?_append unbroken_nil body
      simp [readFields?, hsplit]
  | cons field fields ih =>
      intro fuel hvalid hfuel
      simp only [List.length_cons] at hfuel
      obtain ⟨fuel, rfl⟩ := Nat.exists_eq_succ_of_ne_zero (by omega : fuel ≠ 0)
      have hfield := hvalid field (by simp)
      have hsplit : splitLine? (fieldBlock (field :: fields) ++ body) =
          some (fieldLine field, fieldBlock fields ++ body) := by
        have hline := splitLine?_append (unbroken_fieldLine hfield) (fieldBlock fields ++ body)
        simpa only [fieldBlock, List.flatMap_cons, List.append_assoc] using hline
      have hrest := ih (fun f hf => hvalid f (by simp [hf])) (show fields.length < fuel by omega)
      simp only [readFields?, hsplit, readField?_fieldLine hfield, hrest, Option.bind_eq_bind,
        Option.bind_some, fieldLine_ne_nil, if_false]

end Lines
