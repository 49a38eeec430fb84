import Mathlib.Data.List.Basic

/-! # The order of last entries

A log lists what has entered somewhere, things that enter again included. What counts for the
order of two things is when each has entered last. -/

universe u

namespace EntryOrder

variable {α : Type u} {log xs ys : List α} {a b : α}

/-- `b` has entered after the last entry of `a`. -/
def Before (log : List α) (a b : α) : Prop :=
  ∃ early late, log = early ++ late ∧ a ∈ early ∧ a ∉ late ∧ b ∈ late

theorem Before.concat {c : α} (h : Before log a b) (hc : c ≠ a) : Before (log ++ [c]) a b := by
  obtain ⟨early, late, rfl, hearly, hlate, hb⟩ := h
  refine ⟨early, late ++ [c], List.append_assoc _ _ _, hearly, ?_, by simp [hb]⟩
  simp [hlate, hc.symm]

theorem before_concat (ha : a ∈ log) (hne : b ≠ a) : Before (log ++ [b]) a b :=
  ⟨log, [b], rfl, ha, by simp [hne.symm], by simp⟩

/-- A list in the order in which its members have entered last. -/
structure Queued (log xs : List α) : Prop where
  entered : ∀ x ∈ xs, x ∈ log
  order : xs.Pairwise (Before log)

theorem queued_nil : Queued log [] := ⟨by simp, .nil⟩

theorem Queued.sublist (h : Queued log ys) (hsub : xs.Sublist ys) : Queued log xs :=
  ⟨fun x hx => h.entered x (hsub.subset hx), h.order.sublist hsub⟩

/-- Something enters elsewhere. -/
theorem Queued.concat (h : Queued log xs) (ha : a ∉ xs) : Queued (log ++ [a]) xs where
  entered x hx := List.mem_append_left _ (h.entered x hx)
  order := by
    refine h.order.imp_of_mem fun hx _ hbefore => hbefore.concat ?_
    rintro rfl
    exact ha hx

/-- Something enters at the end. -/
theorem Queued.enter (h : Queued log xs) (ha : a ∉ xs) : Queued (log ++ [a]) (xs ++ [a]) where
  entered x hx := by
    rcases List.mem_append.mp hx with hx | hx
    · exact List.mem_append_left _ (h.entered x hx)
    · exact List.mem_append_right _ hx
  order := by
    refine List.pairwise_append.mpr ⟨(h.concat ha).order, List.pairwise_singleton _ _, ?_⟩
    intro x hx b hb
    obtain rfl := List.mem_singleton.mp hb
    refine before_concat (h.entered x hx) ?_
    rintro rfl
    exact ha hx

/-- The first of a list has entered before all others. -/
theorem Queued.head_before (h : Queued log (a :: xs)) (hb : b ∈ xs) : Before log a b :=
  List.rel_of_pairwise_cons h.order hb

end EntryOrder
