import Mathlib.Data.List.Forall2

/-! Words written one after the other without a separator. Two such lines of words can
only be confused where some word of one is shorter and another is longer. -/
namespace CloudWeb.Foundation
variable {α : Type*} {xs ys : List (List α)}

private theorem length_flatten_le (h : List.Forall₂ (fun x y => x.length ≤ y.length) xs ys) :
    xs.flatten.length ≤ ys.flatten.length := by
  induction h with
  | nil => exact Nat.le_refl _
  | cons hxy _ ih =>
    simp only [List.flatten_cons,List.length_append]
    omega

/-- Where no word got shorter, the whole determines the words. -/
theorem eq_of_flatten_eq (h : List.Forall₂ (fun x y => x.length ≤ y.length) xs ys)
    (he : xs.flatten = ys.flatten) : xs = ys := by
  induction h with
  | nil => rfl
  | cons hxy h ih =>
    rw [List.flatten_cons,List.flatten_cons] at he
    have hrest := length_flatten_le h
    have hlen := congrArg List.length he
    simp only [List.length_append] at hlen
    obtain ⟨rfl,hr⟩ := List.append_inj he (by omega)
    rw [ih hr]

end CloudWeb.Foundation
