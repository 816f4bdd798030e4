import Mathlib

/-!
# Registers that keep the newest write

A register holds the value last written, where a write replaces the stored value when it
is newer by a timestamp `t`, and, when `ties` is set, also when it is exactly as new.  Fed a
list of writes, it ends on a write of the greatest timestamp among the stored value and the
list; fed the same writes in another order, it ends on another such write.  So the orders
agree exactly on what all the newest writes agree on (`map_run_perm`).

    run t ties o L = some r → r ∈ o.toList ++ L                        (run_mem)
    run t ties o L = some r → ∀ m ∈ o.toList ++ L, t m ≤ t r          (le_run)
    o.toList ++ L ≠ [] → ∃ r, run t ties o L = some r ∧ IsNewest …     (exists_run_isNewest)
-/

namespace LastWriter

variable {α β τ : Type} [LinearOrder τ] (t : α → τ) (ties : Bool)

/-- One write: kept if newer than the stored value, or as new when `ties` is set. -/
def step : Option α → α → Option α
  | none, m => some m
  | some s, m => if t s < t m ∨ ties = true ∧ t s = t m then some m else some s

/-- The writes of `L` in turn, from the stored value `o`. -/
def run (o : Option α) (L : List α) : Option α := L.foldl (step t ties) o

/-- `a` is one of the writes of `S` with the greatest timestamp. -/
def IsNewest (S : List α) (a : α) : Prop := a ∈ S ∧ ∀ m ∈ S, t m ≤ t a

variable {t ties}

@[simp] theorem run_nil (o : Option α) : run t ties o [] = o := rfl

@[simp] theorem run_cons (o : Option α) (m : α) (L : List α) :
    run t ties o (m :: L) = run t ties (step t ties o m) L := rfl

theorem step_ne_none (o : Option α) (m : α) : step t ties o m ≠ none := by
  cases o with
  | none => simp [step]
  | some s =>
    simp only [step]
    split <;> simp

/-- The register after a write holds the write or what it held, whichever is newer. -/
theorem step_eq_some {o : Option α} {m r : α} (h : step t ties o m = some r) :
    (r = m ∨ o = some r) ∧ t m ≤ t r ∧ ∀ s, o = some s → t s ≤ t r := by
  cases o with
  | none =>
    simp only [step, Option.some.injEq] at h
    subst h
    exact ⟨.inl rfl, le_refl _, fun s hs => nomatch hs⟩
  | some s =>
    simp only [step] at h
    by_cases hnew : t s < t m ∨ ties = true ∧ t s = t m
    · rw [if_pos hnew, Option.some.injEq] at h
      subst h
      have hsm : t s ≤ t m := by
        rcases hnew with hlt | ⟨-, heq⟩
        · exact le_of_lt hlt
        · exact le_of_eq heq
      exact ⟨.inl rfl, le_refl _, fun s' hs => by cases hs; exact hsm⟩
    · rw [if_neg hnew, Option.some.injEq] at h
      subst h
      have hlt : ¬t s < t m := fun hlt => hnew (.inl hlt)
      exact ⟨.inr rfl, le_of_not_gt hlt, fun s' hs => by cases hs; exact le_refl _⟩

theorem run_ne_none {o : Option α} {L : List α} (h : o ≠ none ∨ L ≠ []) : run t ties o L ≠ none := by
  induction L generalizing o with
  | nil => simpa using h
  | cons m L ih => exact ih (.inl (step_ne_none o m))

/-- What the register ends on is a write it was given. -/
theorem run_mem {o : Option α} {L : List α} {r : α} (h : run t ties o L = some r) :
    r ∈ o.toList ++ L := by
  induction L generalizing o with
  | nil =>
    subst h
    simp
  | cons m L ih =>
    have hmem := ih h
    obtain ⟨s, hs⟩ := Option.ne_none_iff_exists'.mp (show step t ties o m ≠ none from step_ne_none o m)
    rw [hs, Option.toList_some, List.singleton_append, List.mem_cons] at hmem
    -- the register holds the write or what it held before
    rcases (step_eq_some hs).1 with rfl | rfl
    · rcases hmem with rfl | hmem <;> simp [*]
    · rcases hmem with rfl | hmem <;> simp [*]

/-- What the register ends on is at least as new as every write it was given. -/
theorem le_run {o : Option α} {L : List α} {r : α} (h : run t ties o L = some r) :
    ∀ m ∈ o.toList ++ L, t m ≤ t r := by
  induction L generalizing o with
  | nil =>
    subst h
    simp
  | cons m L ih =>
    obtain ⟨s, hs⟩ := Option.ne_none_iff_exists'.mp (show step t ties o m ≠ none from step_ne_none o m)
    have hle := ih (o := step t ties o m) h
    rw [hs] at hle
    have hsr : t s ≤ t r := hle s (by simp)
    obtain ⟨-, hms, hos⟩ := step_eq_some hs
    intro x hx
    simp only [List.mem_append, Option.mem_toList, List.mem_cons] at hx
    rcases hx with hx | rfl | hx
    · exact le_trans (hos x hx) hsr
    · exact le_trans hms hsr
    · exact hle x (by simp [hx])

theorem isNewest_run {o : Option α} {L : List α} {r : α} (h : run t ties o L = some r) :
    IsNewest t (o.toList ++ L) r :=
  ⟨run_mem h, le_run h⟩

/-- A register given some write ends on a newest of them. -/
theorem exists_run_isNewest {o : Option α} {L : List α} (h : o.toList ++ L ≠ []) :
    ∃ r, run t ties o L = some r ∧ IsNewest t (o.toList ++ L) r := by
  have hne : o ≠ none ∨ L ≠ [] := by
    cases o with
    | none => exact .inr (by simpa using h)
    | some s => exact .inl (Option.some_ne_none s)
  obtain ⟨r, hr⟩ := Option.ne_none_iff_exists'.mp (show run t ties o L ≠ none from run_ne_none hne)
  exact ⟨r, hr, isNewest_run hr⟩

/-- Two orders of the same writes end on values on which every pair of newest writes
agrees. -/
theorem map_run_perm (f : α → β) {o : Option α} {L₁ L₂ : List α} (hp : L₁.Perm L₂)
    (hagree : ∀ a b, IsNewest t (o.toList ++ L₁) a → IsNewest t (o.toList ++ L₁) b → f a = f b) :
    (run t ties o L₁).map f = (run t ties o L₂).map f := by
  by_cases hempty : o = none ∧ L₁ = []
  · obtain ⟨rfl, rfl⟩ := hempty
    rw [List.nil_perm.mp hp]
  · have hne₁ : o ≠ none ∨ L₁ ≠ [] := by tauto
    have hne₂ : o ≠ none ∨ L₂ ≠ [] := by
      rcases hne₁ with h | h
      · exact .inl h
      · exact .inr fun h₂ => h (List.perm_nil.mp (h₂ ▸ hp))
    obtain ⟨r₁, h₁⟩ := Option.ne_none_iff_exists'.mp (show run t ties o L₁ ≠ none from run_ne_none hne₁)
    obtain ⟨r₂, h₂⟩ := Option.ne_none_iff_exists'.mp (show run t ties o L₂ ≠ none from run_ne_none hne₂)
    -- the writes are the same, so the other order's end is newest among them too
    have hS : (o.toList ++ L₂).Perm (o.toList ++ L₁) := (hp.append_left _).symm
    have hnew₂ : IsNewest t (o.toList ++ L₁) r₂ :=
      ⟨hS.subset (run_mem h₂), fun m hm => le_run h₂ m (hS.symm.subset hm)⟩
    rw [h₁, h₂, Option.map_some, Option.map_some, hagree r₁ r₂ (isNewest_run h₁) hnew₂]

end LastWriter
