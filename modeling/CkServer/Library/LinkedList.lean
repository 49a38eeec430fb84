import Mathlib.Data.List.Basic
import Mathlib.Logic.Function.Basic

/-! # Doubly linked lists

The links of a heap are two maps from addresses to addresses. A chain is what they make
between two sentinels, seen as the list of its members; putting a node before the last
sentinel and taking a node out are the two edits. -/

universe u

structure Links (α : Type u) where
  next : α → Option α
  pre : α → Option α

namespace Links

variable {α : Type u}

/-- `b` follows `a`. -/
def Link (L : Links α) (a b : α) : Prop := L.next a = some b ∧ L.pre b = some a

/-- The links lead from `a` over the members of the list to `b`, and back. -/
def Path (L : Links α) : α → List α → α → Prop
  | a, [], b => L.Link a b
  | a, x :: xs, b => L.Link a x ∧ L.Path x xs b

/-- The list of the addresses between the sentinels `head` and `tail`. -/
structure Chain (L : Links α) (head : α) (xs : List α) (tail : α) : Prop where
  path : L.Path head xs tail
  nodup : (head :: (xs ++ [tail])).Nodup
  first : L.pre head = none
  last : L.next tail = none

instance decidablePath [DecidableEq α] (L : Links α) :
    ∀ (a : α) (xs : List α) (b : α), Decidable (L.Path a xs b)
  | a, [], b => inferInstanceAs (Decidable (L.next a = some b ∧ L.pre b = some a))
  | a, x :: xs, b =>
      have := decidablePath L x xs b
      inferInstanceAs (Decidable ((L.next a = some x ∧ L.pre x = some a) ∧ L.Path x xs b))

instance [DecidableEq α] (L : Links α) (a : α) (xs : List α) (b : α) :
    Decidable (L.Chain a xs b) :=
  decidable_of_iff
    (L.Path a xs b ∧ (a :: (xs ++ [b])).Nodup ∧ L.pre a = none ∧ L.next b = none)
    ⟨fun h => ⟨h.1, h.2.1, h.2.2.1, h.2.2.2⟩, fun h => ⟨h.path, h.nodup, h.first, h.last⟩⟩

/-! ## Paths -/

@[simp] theorem path_nil (L : Links α) (a b : α) : L.Path a [] b ↔ L.Link a b := Iff.rfl

@[simp] theorem path_cons (L : Links α) (a x : α) (xs : List α) (b : α) :
    L.Path a (x :: xs) b ↔ L.Link a x ∧ L.Path x xs b := Iff.rfl

theorem path_append (L : Links α) (a x b : α) (xs ys : List α) :
    L.Path a (xs ++ x :: ys) b ↔ L.Path a xs x ∧ L.Path x ys b := by
  induction xs generalizing a with
  | nil => simp
  | cons y xs ih => simp [ih, and_assoc]

variable {L M : Links α} {a b c n head tail : α} {xs ys : List α}

theorem Path.next_eq (h : L.Path a xs b) : L.next a = some (xs.headD b) := by
  cases xs with
  | nil => exact h.1
  | cons x xs => exact h.1.1

theorem Path.pre_eq (h : L.Path a xs b) : L.pre b = some (xs.getLastD a) := by
  induction xs generalizing a with
  | nil => exact h.2
  | cons x xs ih =>
      rw [List.getLastD_cons]
      exact ih h.2

/-- A path depends on the links of its members only. -/
theorem Path.congr (h : L.Path a xs b) (hnext : ∀ x ∈ a :: xs, M.next x = L.next x)
    (hpre : ∀ x ∈ xs ++ [b], M.pre x = L.pre x) : M.Path a xs b := by
  induction xs generalizing a with
  | nil =>
      refine ⟨?_, ?_⟩
      · rw [hnext a (by simp), h.1]
      · rw [hpre b (by simp), h.2]
  | cons x xs ih =>
      refine ⟨⟨?_, ?_⟩, ih h.2 ?_ ?_⟩
      · rw [hnext a (by simp), h.1.1]
      · rw [hpre x (by simp), h.1.2]
      · intro y hy
        exact hnext y (List.mem_cons_of_mem _ hy)
      · intro y hy
        exact hpre y (List.mem_cons_of_mem _ hy)

theorem getLastD_mem_cons (a : α) (xs : List α) : xs.getLastD a ∈ a :: xs := by
  induction xs generalizing a with
  | nil => simp
  | cons x xs ih =>
      rw [List.getLastD_cons]
      exact List.mem_cons_of_mem _ (ih x)

theorem headD_mem_append (b : α) (xs : List α) : xs.headD b ∈ xs ++ [b] := by
  cases xs with
  | nil => simp
  | cons x xs => simp

theorem Path.pre_mem (h : L.Path a xs b) (hp : L.pre b = some c) : c ∈ a :: xs := by
  rw [h.pre_eq, Option.some_inj] at hp
  exact hp ▸ getLastD_mem_cons a xs

theorem Path.next_mem (h : L.Path a xs b) (hn : L.next a = some c) : c ∈ xs ++ [b] := by
  rw [h.next_eq, Option.some_inj] at hn
  exact hn ▸ headD_mem_append b xs

/-- A path gets another end. -/
theorem Path.retarget (h : L.Path a xs b) (hnodup : (a :: xs).Nodup)
    (hlast : L.pre b = some n) (hend : M.Link n c)
    (hnext : ∀ x ∈ a :: xs, x ≠ n → M.next x = L.next x)
    (hpre : ∀ x ∈ xs, M.pre x = L.pre x) : M.Path a xs c := by
  induction xs generalizing a with
  | nil =>
      have hn : n = a := by simpa using h.pre_mem hlast
      exact hn ▸ hend
  | cons x xs ih =>
      have hmem : n ∈ x :: xs := h.2.pre_mem hlast
      have hne : a ≠ n := fun e => (List.nodup_cons.mp hnodup).1 (e ▸ hmem)
      refine ⟨⟨?_, ?_⟩, ih h.2 (List.nodup_cons.mp hnodup).2 ?_ ?_⟩
      · rw [hnext a (by simp) hne, h.1.1]
      · rw [hpre x (by simp), h.1.2]
      · intro y hy
        exact hnext y (List.mem_cons_of_mem _ hy)
      · intro y hy
        exact hpre y (List.mem_cons_of_mem _ hy)

/-! ## Chains -/

theorem Chain.congr (h : L.Chain head xs tail)
    (hnext : ∀ x ∈ head :: (xs ++ [tail]), M.next x = L.next x)
    (hpre : ∀ x ∈ head :: (xs ++ [tail]), M.pre x = L.pre x) : M.Chain head xs tail where
  path := by
    refine h.path.congr ?_ ?_
    · intro x hx
      exact hnext x (List.mem_append_left [tail] hx)
    · intro x hx
      exact hpre x (List.mem_cons_of_mem _ hx)
  nodup := h.nodup
  first := by rw [hpre head (by simp), h.first]
  last := by rw [hnext tail (by simp), h.last]

theorem Chain.next_head_eq_iff (h : L.Chain head xs tail) :
    L.next head = some tail ↔ xs = [] := by
  rw [h.path.next_eq]
  cases xs with
  | nil => simp
  | cons x xs =>
      have hnodup := h.nodup
      simp at hnodup ⊢
      intro heq
      simp [heq] at hnodup

/-- A path ends where it first comes to its end, so the links determine its members. -/
theorem Path.unique (h : L.Path a xs b) (k : L.Path a ys b) (hx : b ∉ xs) (hy : b ∉ ys) :
    xs = ys := by
  induction xs generalizing a ys with
  | nil =>
      cases ys with
      | nil => rfl
      | cons y ys =>
          obtain rfl := Option.some.inj (h.next_eq.symm.trans k.next_eq)
          exact absurd (List.mem_cons_self ..) hy
  | cons x xs ih =>
      cases ys with
      | nil =>
          obtain rfl := Option.some.inj (k.next_eq.symm.trans h.next_eq)
          exact absurd (List.mem_cons_self ..) hx
      | cons y ys =>
          obtain rfl : x = y := Option.some.inj (h.next_eq.symm.trans k.next_eq)
          rw [ih h.2 k.2 (fun hb => hx (List.mem_cons_of_mem _ hb))
            (fun hb => hy (List.mem_cons_of_mem _ hb))]

theorem Chain.unique (h : L.Chain head xs tail) (k : L.Chain head ys tail) : xs = ys := by
  have htail {zs : List α} (hz : L.Chain head zs tail) : tail ∉ zs := by
    have hnodup := (List.nodup_cons.mp hz.nodup).2
    exact fun hmem => (List.nodup_append.mp hnodup).2.2 tail hmem tail (by simp) rfl
  exact h.path.unique k.path (htail h) (htail k)

/-! ## The two edits -/

section Edits

variable [DecidableEq α]

def setNext (L : Links α) (a : α) (v : Option α) : Links α :=
  { L with next := Function.update L.next a v }

def setPre (L : Links α) (a : α) (v : Option α) : Links α :=
  { L with pre := Function.update L.pre a v }

/-- `n` goes between `last` and `tail`. -/
def insertBefore (L : Links α) (last n tail : α) : Links α :=
  (((L.setPre n (some last)).setNext n (some tail)).setNext last (some n)).setPre tail (some n)

/-- `n` leaves its place between `p` and `q`. -/
def remove (L : Links α) (p n q : α) : Links α :=
  (((L.setNext p (some q)).setPre q (some p)).setPre n none).setNext n none

theorem next_insertBefore (L : Links α) (last n tail x : α) :
    (L.insertBefore last n tail).next x =
      if x = last then some n else if x = n then some tail else L.next x := by
  simp [insertBefore, setNext, setPre, Function.update_apply]

theorem pre_insertBefore (L : Links α) (last n tail x : α) :
    (L.insertBefore last n tail).pre x =
      if x = tail then some n else if x = n then some last else L.pre x := by
  simp [insertBefore, setNext, setPre, Function.update_apply]

theorem next_remove (L : Links α) (p n q x : α) :
    (L.remove p n q).next x = if x = n then none else if x = p then some q else L.next x := by
  simp [remove, setNext, setPre, Function.update_apply]

theorem pre_remove (L : Links α) (p n q x : α) :
    (L.remove p n q).pre x = if x = n then none else if x = q then some p else L.pre x := by
  simp [remove, setNext, setPre, Function.update_apply]

theorem Chain.insertBefore (h : L.Chain head xs tail) (hn : n ∉ head :: (xs ++ [tail]))
    (hlast : L.pre tail = some c) :
    (L.insertBefore c n tail).Chain head (xs ++ [n]) tail := by
  have hc := h.path.pre_mem hlast
  have hnodup : (head :: xs ++ [tail]).Nodup := h.nodup
  rw [List.nodup_append] at hnodup
  have hmem : ∀ x ∈ head :: xs, x ≠ n ∧ x ≠ tail := by
    intro x hx
    refine ⟨?_, hnodup.2.2 x hx tail (by simp)⟩
    rintro rfl
    exact hn (List.mem_append_left [tail] hx)
  have htail : n ≠ tail := fun e => hn (by simp [e])
  have hhead : n ≠ head := fun e => hn (by simp [e])
  refine ⟨?_, ?_, ?_, ?_⟩
  · rw [path_append]
    refine ⟨h.path.retarget hnodup.1 hlast ?_ ?_ ?_, ?_⟩
    · simp [Link, next_insertBefore, pre_insertBefore, htail]
    · intro x hx hxc
      simp [next_insertBefore, hxc, (hmem x hx).1]
    · intro x hx
      have hne := hmem x (List.mem_cons_of_mem _ hx)
      simp [pre_insertBefore, hne.1, hne.2]
    · simp [Link, next_insertBefore, pre_insertBefore, (hmem c hc).1.symm]
  · have hperm : (head :: xs ++ n :: [tail]).Perm (n :: (head :: xs ++ [tail])) :=
      List.perm_middle
    rw [List.append_assoc]
    exact hperm.nodup_iff.mpr (List.nodup_cons.mpr ⟨hn, h.nodup⟩)
  · rw [pre_insertBefore, if_neg (hmem head (by simp)).2, if_neg hhead.symm, h.first]
  · rw [next_insertBefore, if_neg (hmem c hc).2.symm, if_neg htail.symm, h.last]

theorem Chain.remove {p q : α} (h : L.Chain head (xs ++ n :: ys) tail) (hp : L.pre n = some p)
    (hq : L.next n = some q) : (L.remove p n q).Chain head (xs ++ ys) tail := by
  have hpath := (path_append L head n tail xs ys).mp h.path
  have hpmem := hpath.1.pre_mem hp
  have hqmem := hpath.2.next_mem hq
  have hnodup : ((head :: xs) ++ n :: (ys ++ [tail])).Nodup := by simpa using h.nodup
  obtain ⟨hfront, hrest, hdisj⟩ := List.nodup_append.mp hnodup
  obtain ⟨hn, hback⟩ := List.nodup_cons.mp hrest
  have hxn : ∀ x ∈ head :: xs, x ≠ n := fun x hx => hdisj x hx n (by simp)
  have hyn : ∀ y ∈ ys ++ [tail], y ≠ n := fun y hy e => hn (e ▸ hy)
  have hxy : ∀ x ∈ head :: xs, ∀ y ∈ ys ++ [tail], x ≠ y := fun x hx y hy =>
    hdisj x hx y (List.mem_cons_of_mem _ hy)
  have hnext : ∀ x, x ≠ n → x ≠ p → (L.remove p n q).next x = L.next x := by
    intro x hx hxp
    rw [next_remove, if_neg hx, if_neg hxp]
  have hpre : ∀ x, x ≠ n → x ≠ q → (L.remove p n q).pre x = L.pre x := by
    intro x hx hxq
    rw [pre_remove, if_neg hx, if_neg hxq]
  have hlink : (L.remove p n q).Link p q := by
    simp [Link, next_remove, pre_remove, hxn p hpmem, hyn q hqmem]
  have hleft : (L.remove p n q).Path head xs q := by
    refine hpath.1.retarget hfront hp hlink ?_ ?_
    · intro x hx hxp
      exact hnext x (hxn x hx) hxp
    · intro x hx
      exact hpre x (hxn x (List.mem_cons_of_mem _ hx)) (hxy x (List.mem_cons_of_mem _ hx) q hqmem)
  refine ⟨?_, ?_, ?_, ?_⟩
  · cases ys with
    | nil =>
        have hqt : q = tail := by simpa using hqmem
        simpa [hqt] using hleft
    | cons y ys =>
        have hqy : q = y := by
          have heq := hpath.2.1.1
          rw [hq] at heq
          exact Option.some.inj heq
        rw [path_append]
        refine ⟨hqy ▸ hleft, hpath.2.2.congr ?_ ?_⟩
        · intro x hx
          have hx' : x ∈ y :: ys ++ [tail] := by simp at hx ⊢; tauto
          exact hnext x (hyn x hx') (Ne.symm (hxy p hpmem x hx'))
        · intro x hx
          refine hpre x (hyn x (List.mem_cons_of_mem _ hx)) ?_
          rintro rfl
          rw [hqy] at hx
          exact (List.nodup_cons.mp hback).1 hx
  · have hsub : (head :: (xs ++ ys ++ [tail])).Sublist (head :: (xs ++ n :: ys ++ [tail])) := by
      simp
    exact hsub.nodup h.nodup
  · rw [hpre head (hxn head (by simp)) (hxy head (by simp) q hqmem), h.first]
  · rw [hnext tail (hyn tail (by simp)) (Ne.symm (hxy p hpmem tail (by simp))), h.last]

end Edits

end Links
