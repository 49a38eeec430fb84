import Mathlib.Data.Nat.Notation
import Mathlib.Tactic.Ring

/-! # Byte memory

Words of eight bytes with the least significant byte first, lists threaded through the first
words of their elements, and owners of the bytes. -/

abbrev Bytes := ℕ → UInt8

namespace Bytes

/-! ## Words -/

def loadBytes (m : Bytes) (a : ℕ) : ℕ → ℕ
  | 0 => 0
  | k + 1 => (m a).toNat + 256 * loadBytes m (a + 1) k

def load (m : Bytes) (a : ℕ) : ℕ := m.loadBytes a 8

def store (m : Bytes) (a v : ℕ) : Bytes := fun x =>
  if a ≤ x ∧ x < a + 8 then UInt8.ofNat (v / 256 ^ (x - a)) else m x

theorem store_of_notMem {m : Bytes} {a v x : ℕ} (h : ¬ (a ≤ x ∧ x < a + 8)) :
    m.store a v x = m x := if_neg h

theorem loadBytes_eq_mod {m : Bytes} {a v k : ℕ}
    (h : ∀ j < k, m (a + j) = UInt8.ofNat (v / 256 ^ j)) : m.loadBytes a k = v % 256 ^ k := by
  induction k generalizing a v with
  | zero => simp [loadBytes, Nat.mod_one]
  | succ k ih =>
      have hfirst : (m a).toNat = v % 256 := by
        have hzero := h 0 (Nat.succ_pos k)
        simp only [Nat.add_zero, Nat.pow_zero, Nat.div_one] at hzero
        rw [hzero, UInt8.toNat_ofNat']
      have hrest : m.loadBytes (a + 1) k = v / 256 % 256 ^ k := by
        apply ih
        intro j hj
        have hnext := h (j + 1) (Nat.succ_lt_succ hj)
        rw [Nat.add_assoc, Nat.add_comm 1 j, hnext, Nat.pow_succ', Nat.div_div_eq_div_mul]
      rw [loadBytes, hfirst, hrest, Nat.pow_succ', Nat.mod_mul]

theorem load_store (m : Bytes) (a : ℕ) {v : ℕ} (hv : v < 2 ^ 64) : (m.store a v).load a = v := by
  have hload := loadBytes_eq_mod (m := m.store a v) (a := a) (v := v) (k := 8) (by
    intro j hj
    rw [store, if_pos ⟨Nat.le_add_right a j, Nat.add_lt_add_left hj a⟩, Nat.add_sub_cancel_left])
  rw [load, hload]
  exact Nat.mod_eq_of_lt hv

theorem loadBytes_congr {m m' : Bytes} {a k : ℕ} (h : ∀ x, a ≤ x → x < a + k → m' x = m x) :
    m'.loadBytes a k = m.loadBytes a k := by
  induction k generalizing a with
  | zero => rfl
  | succ k ih =>
      rw [loadBytes, loadBytes, h a (Nat.le_refl a) (by omega),
        ih fun x hx hlt => h x (by omega) (by omega)]

theorem load_congr {m m' : Bytes} {a : ℕ} (h : ∀ x, a ≤ x → x < a + 8 → m' x = m x) :
    m'.load a = m.load a := loadBytes_congr h

/-! ## Threaded lists -/

/-- The list that starts at the pointer `a` and goes on through the first words of its elements
has the elements `qs`. -/
def Linked (m : Bytes) : ℕ → List ℕ → Prop
  | a, [] => a = 0
  | a, q :: qs => a = q ∧ q ≠ 0 ∧ Linked m (m.load q) qs

/-- Following the pointers from `a` one comes to `b`. -/
inductive Reaches (m : Bytes) : ℕ → ℕ → Prop
  | here {a : ℕ} (h : a ≠ 0) : Reaches m a a
  | next {a b : ℕ} (h : a ≠ 0) (r : Reaches m (m.load a) b) : Reaches m a b

theorem Linked.mem_iff_reaches {m : Bytes} {a b : ℕ} {qs : List ℕ} (h : m.Linked a qs) :
    b ∈ qs ↔ m.Reaches a b := by
  induction qs generalizing a with
  | nil =>
      refine ⟨fun hb => absurd hb List.not_mem_nil, fun r => ?_⟩
      cases r with
      | here hne => exact absurd h hne
      | next hne _ => exact absurd h hne
  | cons q qs ih =>
      obtain ⟨rfl, hne, hrest⟩ := h
      rw [List.mem_cons, ih hrest]
      constructor
      · intro hb
        rcases hb with rfl | r
        · exact .here hne
        · exact .next hne r
      · intro r
        cases r with
        | here _ => exact .inl rfl
        | next _ r => exact .inr r

theorem Linked.congr {m m' : Bytes} {a : ℕ} {qs : List ℕ} (h : m.Linked a qs)
    (hsame : ∀ q ∈ qs, ∀ x, q ≤ x → x < q + 8 → m' x = m x) : m'.Linked a qs := by
  induction qs generalizing a with
  | nil => exact h
  | cons q qs ih =>
      obtain ⟨rfl, hne, hrest⟩ := h
      have hload : m'.load a = m.load a := load_congr (hsame a (by simp))
      refine ⟨rfl, hne, ?_⟩
      rw [hload]
      exact ih hrest fun q hq => hsame q (by simp [hq])

/-- One memory has only one list at a pointer. -/
theorem Linked.unique {m : Bytes} {a : ℕ} {qs qs' : List ℕ} (h : m.Linked a qs)
    (h' : m.Linked a qs') : qs' = qs := by
  induction qs generalizing a qs' with
  | nil =>
      cases qs' with
      | nil => rfl
      | cons q' qs' => exact absurd (h'.1.symm.trans h) h'.2.1
  | cons q qs ih =>
      obtain ⟨rfl, hne, hrest⟩ := h
      cases qs' with
      | nil => exact absurd h' hne
      | cons q' qs' =>
          obtain ⟨rfl, -, hrest'⟩ := h'
          rw [ih hrest hrest']

open scoped Classical in
/-- The list at the pointer `a`, if there is one. -/
noncomputable def listAt (m : Bytes) (a : ℕ) : List ℕ :=
  if h : ∃ qs, m.Linked a qs then h.choose else []

theorem Linked.listAt_eq {m : Bytes} {a : ℕ} {qs : List ℕ} (h : m.Linked a qs) :
    m.listAt a = qs := by
  have hex : ∃ qs, m.Linked a qs := ⟨qs, h⟩
  rw [listAt, dif_pos hex]
  exact h.unique hex.choose_spec

end Bytes

/-! ## Owners -/

/-- The `m` bytes at `a` and the `n` bytes at `b` do not overlap. -/
def Apart (a m b n : ℕ) : Prop := a + m ≤ b ∨ b + n ≤ a

instance (a m b n : ℕ) : Decidable (Apart a m b n) :=
  inferInstanceAs (Decidable (a + m ≤ b ∨ b + n ≤ a))

theorem Apart.symm {a m b n : ℕ} (h : Apart a m b n) : Apart b n a m := Or.symm h

section Owners

variable {ι : Type*} {owner : ℕ → Option ι} {l l' : ι} {a b m n x : ℕ}

/-- The `n` bytes at `a` all belong to `l`. -/
def Owned (owner : ℕ → Option ι) (l : ι) (a n : ℕ) : Prop :=
  ∀ x, a ≤ x → x < a + n → owner x = some l

/-- The `n` bytes at `a` get another owner, or none. -/
def paint (owner : ℕ → Option ι) (a n : ℕ) (o : Option ι) : ℕ → Option ι := fun x =>
  if a ≤ x ∧ x < a + n then o else owner x

theorem Owned.first (h : Owned owner l a n) (hn : 0 < n) : owner a = some l :=
  h a (Nat.le_refl a) (by omega)

theorem Owned.sub (h : Owned owner l a n) (hle : a ≤ b) (hend : b + m ≤ a + n) :
    Owned owner l b m := fun x hx hlt => h x (by omega) (by omega)

/-- Bytes of different owners do not overlap. -/
theorem Owned.apart (h : Owned owner l a m) (k : Owned owner l' b n) (hne : l ≠ l') (hm : 0 < m)
    (hn : 0 < n) : Apart a m b n := by
  by_contra hover
  rw [Apart, not_or, not_le, not_le] at hover
  have hx := h (max a b) (by omega) (by omega)
  rw [k (max a b) (by omega) (by omega), Option.some_inj] at hx
  exact hne hx.symm

theorem paint_of_notMem {o : Option ι} (h : ¬ (a ≤ x ∧ x < a + n)) :
    paint owner a n o x = owner x := if_neg h

theorem owned_paint (owner : ℕ → Option ι) (l : ι) (a n : ℕ) :
    Owned (paint owner a n (some l)) l a n := fun _ hx hlt => if_pos ⟨hx, hlt⟩

/-- The owner of none of the painted bytes keeps what it owns. -/
theorem Owned.paint {o : Option ι} (h : Owned owner l b m)
    (hne : ∀ x, a ≤ x → x < a + n → owner x ≠ some l) : Owned (paint owner a n o) l b m := by
  intro x hx hlt
  have hout : ¬ (a ≤ x ∧ x < a + n) := fun hin => hne x hin.1 hin.2 (h x hx hlt)
  rw [paint_of_notMem hout]
  exact h x hx hlt

end Owners
