/-!
# Cutting a list at a separator

The stretches of a list between the occurrences of a separator: one more than there are separators,
the empty ones included.  Lines are cut at line feeds and paths at slashes.
-/

namespace UvaAnalysis.Text

/-- The stretches of a list between the occurrences of `separator`. -/
def cut {α : Type} [DecidableEq α] (separator : α) : List α → List (List α)
  | [] => [[]]
  | x :: xs =>
    if x = separator then [] :: cut separator xs
    else
      match cut separator xs with
      | stretch :: others => (x :: stretch) :: others
      | [] => [[x]]

variable {α : Type} [DecidableEq α] {separator : α}

/-- An empty list is one empty stretch. -/
@[simp] theorem cut_nil : cut separator [] = [[]] := rfl

/-- A list that begins with a separator begins with an empty stretch. -/
@[simp] theorem cut_separator (xs : List α) :
    cut separator (separator :: xs) = [] :: cut separator xs := by
  simp [cut]

/-- Every list has a first stretch. -/
theorem cut_ne_nil (xs : List α) : cut separator xs ≠ [] := by
  cases xs with
  | nil => simp [cut]
  | cons x xs =>
    rw [cut]
    split
    · simp
    · split <;> simp

/-- A list without the separator is one stretch. -/
theorem cut_of_notMem {xs : List α} (h : separator ∉ xs) : cut separator xs = [xs] := by
  induction xs with
  | nil => rfl
  | cons x xs ih =>
    rw [List.mem_cons, not_or] at h
    rw [cut, if_neg (Ne.symm h.1), ih h.2]

/-- What stands before the first separator is the first stretch. -/
theorem cut_append_separator {xs : List α} (h : separator ∉ xs) (ys : List α) :
    cut separator (xs ++ separator :: ys) = xs :: cut separator ys := by
  induction xs with
  | nil => rw [List.nil_append, cut_separator]
  | cons x xs ih =>
    rw [List.mem_cons, not_or] at h
    rw [List.cons_append, cut, if_neg (Ne.symm h.1), ih h.2]

/-- No stretch holds the separator. -/
theorem separator_notMem_of_mem_cut {xs stretch : List α} (h : stretch ∈ cut separator xs) :
    separator ∉ stretch := by
  induction xs generalizing stretch with
  | nil => simp_all [cut]
  | cons x xs ih =>
    obtain ⟨s, others, hs⟩ : ∃ s others, cut separator xs = s :: others :=
      List.exists_cons_of_ne_nil (cut_ne_nil xs)
    rw [cut] at h
    split at h
    · rcases List.mem_cons.1 h with rfl | h
      · simp
      · exact ih h
    · rename_i hx
      rw [hs] at h ih
      rcases List.mem_cons.1 h with rfl | h
      · have := ih (List.mem_cons_self ..)
        simp [Ne.symm hx, this]
      · exact ih (List.mem_cons_of_mem _ h)

end UvaAnalysis.Text
