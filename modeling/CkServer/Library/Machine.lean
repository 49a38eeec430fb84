import Mathlib.Data.Nat.Notation

/-! # Guarded machines and their runs

A machine moves from state to state by actions. Whether an action may happen and where it
leads are kept apart, so that a run is a list of actions, and every property of runs is
proved from what one enabled action does. -/

universe u v

structure Machine (σ : Type u) (α : Type v) where
  enabled : σ → α → Prop
  next : σ → α → σ

namespace Machine

variable {σ : Type u} {α : Type v} (M : Machine σ α)

/-- The state after a list of actions. -/
def run (s : σ) (as : List α) : σ := as.foldl M.next s

/-- Every action of the list, taken in the state it finds, has the property `p`. -/
def Always (p : σ → α → Prop) (s : σ) : List α → Prop
  | [] => True
  | a :: as => p s a ∧ Always p (M.next s a) as

/-- A run of the machine: each action is enabled where it is taken. -/
def Runs (s : σ) (as : List α) : Prop := M.Always M.enabled s as

instance decidableAlways (p : σ → α → Prop) [∀ s a, Decidable (p s a)] :
    ∀ (s : σ) (as : List α), Decidable (M.Always p s as)
  | _, [] => .isTrue trivial
  | s, a :: as =>
      have := decidableAlways p (M.next s a) as
      inferInstanceAs (Decidable (p s a ∧ M.Always p (M.next s a) as))

instance [∀ s a, Decidable (M.enabled s a)] (s : σ) (as : List α) : Decidable (M.Runs s as) :=
  inferInstanceAs (Decidable (M.Always M.enabled s as))

@[simp] theorem run_nil (s : σ) : M.run s [] = s := rfl

@[simp] theorem run_cons (s : σ) (a : α) (as : List α) :
    M.run s (a :: as) = M.run (M.next s a) as := rfl

theorem run_append (s : σ) (as bs : List α) :
    M.run s (as ++ bs) = M.run (M.run s as) bs := by
  simp [run]

@[simp] theorem always_nil (p : σ → α → Prop) (s : σ) : M.Always p s [] := trivial

@[simp] theorem always_cons (p : σ → α → Prop) (s : σ) (a : α) (as : List α) :
    M.Always p s (a :: as) ↔ p s a ∧ M.Always p (M.next s a) as := Iff.rfl

theorem always_of_forall {p : σ → α → Prop} (h : ∀ s a, p s a) (s : σ) (as : List α) :
    M.Always p s as := by
  induction as generalizing s with
  | nil => trivial
  | cons a as ih => exact ⟨h s a, ih (M.next s a)⟩

theorem always_mono {p q : σ → α → Prop} (h : ∀ s a, p s a → q s a) {s : σ} {as : List α}
    (hall : M.Always p s as) : M.Always q s as := by
  induction as generalizing s with
  | nil => trivial
  | cons a as ih => exact ⟨h s a hall.1, ih hall.2⟩

theorem always_append (p : σ → α → Prop) (s : σ) (as bs : List α) :
    M.Always p s (as ++ bs) ↔ M.Always p s as ∧ M.Always p (M.run s as) bs := by
  induction as generalizing s with
  | nil => simp
  | cons a as ih => simp [ih, and_assoc]

theorem runs_append (s : σ) (as bs : List α) :
    M.Runs s (as ++ bs) ↔ M.Runs s as ∧ M.Runs (M.run s as) bs :=
  M.always_append M.enabled s as bs

/-! ## Invariants -/

/-- What every enabled and permitted action preserves holds at the end of every run of
permitted actions. -/
theorem invariant {I : σ → Prop} {p : σ → α → Prop}
    (hstep : ∀ s a, I s → M.enabled s a → p s a → I (M.next s a)) :
    ∀ {s : σ} {as : List α}, I s → M.Runs s as → M.Always p s as → I (M.run s as) := by
  intro s as
  induction as generalizing s with
  | nil => exact fun hs _ _ => hs
  | cons a as ih =>
      rintro hs ⟨hen, hruns⟩ ⟨hok, hall⟩
      exact ih (hstep s a hs hen hok) hruns hall

/-- The rule where every enabled action is permitted. -/
theorem invariant_of_runs {I : σ → Prop} (hstep : ∀ s a, I s → M.enabled s a → I (M.next s a))
    {s : σ} {as : List α} (hs : I s) (hruns : M.Runs s as) : I (M.run s as) :=
  M.invariant (fun s a h hen _ => hstep s a h hen) hs hruns hruns

/-- What an invariant says of every permitted action holds of all actions of a run. -/
theorem always_of_invariant {I : σ → Prop} {p q : σ → α → Prop}
    (hstep : ∀ s a, I s → M.enabled s a → p s a → I (M.next s a))
    (hq : ∀ s a, I s → M.enabled s a → p s a → q s a) :
    ∀ {s : σ} {as : List α}, I s → M.Runs s as → M.Always p s as → M.Always q s as := by
  intro s as
  induction as generalizing s with
  | nil => exact fun _ _ _ => trivial
  | cons a as ih =>
      rintro hs ⟨hen, hruns⟩ ⟨hok, hall⟩
      exact ⟨hq s a hs hen hok, ih (hstep s a hs hen hok) hruns hall⟩

/-- The rule for a property of the start and the current state together. -/
theorem invariant_from {I : σ → Prop} {R : σ → σ → Prop} {p : σ → α → Prop} {s : σ}
    {as : List α} (hrefl : R s s)
    (hstep : ∀ t a, I t → R s t → M.enabled t a → p t a → R s (M.next t a))
    (hinv : ∀ t a, I t → M.enabled t a → p t a → I (M.next t a))
    (hs : I s) (hruns : M.Runs s as) (hall : M.Always p s as) : R s (M.run s as) := by
  have hboth : I (M.run s as) ∧ R s (M.run s as) := by
    refine M.invariant (I := fun t => I t ∧ R s t) ?_ ⟨hs, hrefl⟩ hruns hall
    rintro t a ⟨hI, hR⟩ hen hok
    exact ⟨hinv t a hI hen hok, hstep t a hI hR hen hok⟩
  exact hboth.2

/-- A run with an action that is not permitted goes up to the first of these, and on from it. -/
theorem exists_of_not_always {p : σ → α → Prop} {s : σ} {as : List α}
    (h : ¬ M.Always p s as) :
    ∃ bs a cs, as = bs ++ a :: cs ∧ M.Always p s bs ∧ ¬ p (M.run s bs) a := by
  induction as generalizing s with
  | nil => exact absurd trivial h
  | cons a as ih =>
      by_cases hok : p s a
      · obtain ⟨bs, b, cs, heq, hall, hb⟩ := ih (fun hall => h ⟨hok, hall⟩)
        exact ⟨a :: bs, b, cs, by rw [heq, List.cons_append], ⟨hok, hall⟩, hb⟩
      · exact ⟨[], a, as, rfl, trivial, hok⟩

/-- When the permitted actions keep an invariant, and the first other one breaks what follows from
it, a run of permitted actions is one that has this in every state. -/
theorem forall_prefix_iff_always {I Q : σ → Prop} {p : σ → α → Prop}
    (hstep : ∀ s a, I s → M.enabled s a → p s a → I (M.next s a)) (hQ : ∀ s, I s → Q s)
    (hbreaks : ∀ s a, I s → M.enabled s a → ¬ p s a → ¬ Q (M.next s a)) {s : σ} {as : List α}
    (hs : I s) (hruns : M.Runs s as) :
    (∀ bs, bs <+: as → Q (M.run s bs)) ↔ M.Always p s as := by
  constructor
  · intro hall
    refine Classical.byContradiction fun hnot => ?_
    obtain ⟨bs, a, cs, rfl, hok, hbad⟩ := M.exists_of_not_always hnot
    obtain ⟨hbefore, hen, -⟩ := (M.runs_append s bs (a :: cs)).mp hruns
    have hnext := hall (bs ++ [a]) ⟨cs, by rw [List.append_assoc, List.singleton_append]⟩
    rw [run_append] at hnext
    exact hbreaks _ a (M.invariant hstep hs hbefore hok) hen hbad hnext
  · intro hok bs hbs
    obtain ⟨cs, rfl⟩ := hbs
    have hruns := ((M.runs_append s bs cs).mp hruns).1
    have hok := ((M.always_append p s bs cs).mp hok).1
    exact hQ _ (M.invariant hstep hs hruns hok)

/-- When an action that is not permitted leaves a mark that stays, a run without a mark at the
end has taken permitted actions only. -/
theorem always_or_marked {L : σ → Prop} {p : σ → α → Prop}
    (hmark : ∀ s a, ¬ p s a → L (M.next s a))
    (hstays : ∀ s a, L s → M.enabled s a → L (M.next s a)) {s : σ} {as : List α}
    (hruns : M.Runs s as) : M.Always p s as ∨ L (M.run s as) := by
  by_cases h : M.Always p s as
  · exact .inl h
  · obtain ⟨bs, a, cs, rfl, -, hok⟩ := M.exists_of_not_always h
    have hrest := ((M.runs_append s bs (a :: cs)).mp hruns).2.2
    have hend : L (M.run (M.next (M.run s bs) a) cs) :=
      M.invariant_of_runs hstays (hmark _ a hok) hrest
    rw [run_append, run_cons]
    exact .inr hend

/-! ## Ranks -/

/-- When a step of one kind takes from a rank, and another step adds to it at most one, and only if
it is of a second kind, a run has at most as many steps of the first kind as the rank at its
beginning and the steps of the second kind allow. -/
theorem countP_add_rank_le {I : σ → Prop} (rank : σ → ℕ) {own late : α → Bool}
    (hstep : ∀ s a, I s → M.enabled s a → I (M.next s a))
    (hrank : ∀ s a, I s → M.enabled s a →
      rank (M.next s a) + (if own a then 1 else 0) ≤ rank s + if late a then 1 else 0)
    {s : σ} {as : List α} (hs : I s) (hruns : M.Runs s as) :
    as.countP own + rank (M.run s as) ≤ rank s + as.countP late := by
  induction as generalizing s with
  | nil => simp
  | cons a as ih =>
      obtain ⟨hen, hruns⟩ := hruns
      have hfirst := hrank s a hs hen
      have hrest := ih (hstep s a hs hen) hruns
      simp only [List.countP_cons, run_cons]
      omega

end Machine
