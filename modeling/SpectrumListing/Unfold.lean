/-! Sources that hand out items one at a time. Each step leaves a smaller state, so a source always
runs dry; `toList_of_none` and `toList_of_some` give its items by recursion on the steps. -/
namespace SpectrumListing

/-- A step yields an item and the state after it, or stops; `size` falls with every step. -/
structure Unfold (σ α : Type) where
  step : σ → Option (α × σ)
  size : σ → Nat
  size_lt : ∀ {s a t}, step s = some (a, t) → size t < size s

namespace Unfold

variable {σ α : Type}

/-- Steps until the source stops, collecting the items after those already `done`. -/
def drain (u : Unfold σ α) (done : Array α) (s : σ) : Array α × σ :=
  match _h : u.step s with
  | none => (done, s)
  | some (a, t) => u.drain (done.push a) t
termination_by u.size s
decreasing_by exact u.size_lt _h

/-- Every item of the source, in order. -/
def toList (u : Unfold σ α) (s : σ) : List α :=
  (u.drain #[] s).1.toList

/-- The state in which the source stops. -/
def last (u : Unfold σ α) (s : σ) : σ :=
  (u.drain #[] s).2

theorem drain_of_none {u : Unfold σ α} {s : σ} (h : u.step s = none) (done : Array α) :
    u.drain done s = (done, s) := by
  rw [drain]
  split
  · rfl
  · simp_all

theorem drain_of_some {u : Unfold σ α} {s t : σ} {a : α} (h : u.step s = some (a, t))
    (done : Array α) : u.drain done s = u.drain (done.push a) t := by
  rw [drain]
  split <;> simp_all

theorem toList_of_none {u : Unfold σ α} {s : σ} (h : u.step s = none) : u.toList s = [] := by
  rw [toList, drain_of_none h]

theorem last_of_none {u : Unfold σ α} {s : σ} (h : u.step s = none) : u.last s = s := by
  rw [last, drain_of_none h]

/-- Items already collected stay in front. -/
theorem drain_eq (u : Unfold σ α) (done : Array α) (s : σ) :
    u.drain done s = ((done.toList ++ u.toList s).toArray, u.last s) := by
  induction hn : u.size s using Nat.strongRecOn generalizing done s with
  | _ n ih =>
    subst hn
    cases h : u.step s with
    | none => simp [drain_of_none h, toList_of_none h, last_of_none h]
    | some r =>
      obtain ⟨a, t⟩ := r
      have rest (d : Array α) := ih _ (u.size_lt h) d t rfl
      have items : u.toList s = a :: u.toList t := by
        rw [toList, drain_of_some h, rest]
        simp
      have final : u.last s = u.last t := by rw [last, drain_of_some h, rest]
      rw [drain_of_some h, rest, items, final]
      simp

theorem toList_of_some {u : Unfold σ α} {s t : σ} {a : α} (h : u.step s = some (a, t)) :
    u.toList s = a :: u.toList t := by
  rw [toList, drain_of_some h, drain_eq]
  simp

theorem last_of_some {u : Unfold σ α} {s t : σ} {a : α} (h : u.step s = some (a, t)) :
    u.last s = u.last t := by
  rw [last, drain_of_some h, drain_eq]

/-- Where a source stops there is nothing left. -/
theorem toList_last (u : Unfold σ α) (s : σ) : u.toList (u.last s) = [] := by
  induction hn : u.size s using Nat.strongRecOn generalizing s with
  | _ n ih =>
    subst hn
    cases h : u.step s with
    | none => rw [last_of_none h, toList_of_none h]
    | some r =>
      obtain ⟨a, t⟩ := r
      rw [last_of_some h]
      exact ih _ (u.size_lt h) t rfl

end Unfold

end SpectrumListing
