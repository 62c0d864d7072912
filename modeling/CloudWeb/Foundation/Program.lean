import Mathlib.Logic.Basic

/-! A computation that asks its environment questions and goes on with the answers.
One asked question is one atomic step of whatever system the computation is put in. -/
namespace CloudWeb.Foundation

inductive Program (Q R A : Type)
  | done (a : A)
  | ask (q : Q) (resume : R → Program Q R A)

namespace Program
variable {Q R A : Type} {P : Program Q R A → Prop}

/-- Answer every question from a tape, which has to last exactly to the end. -/
def feed : Program Q R A → List R → Option A
  | .done a, [] => some a
  | .ask _ resume, r :: rs => feed (resume r) rs
  | .done _, _ :: _ => none
  | .ask _ _, [] => none

/-- Let an environment with a state answer every question. -/
def run {S : Type} (answer : S → Q → R × S) : Program Q R A → S → A × S
  | .done a, s => (a,s)
  | .ask q resume, s => run answer (resume (answer s q).1) (answer s q).2

/-- `P` holds of the program and of all it can become. -/
def Every (P : Program Q R A → Prop) : Program Q R A → Prop
  | .done a => P (.done a)
  | .ask q resume => P (.ask q resume) ∧ ∀ r, Every P (resume r)

theorem Every.self {p : Program Q R A} (h : Every P p) : P p := by
  cases p with
  | done a => exact h
  | ask q resume => exact h.1

theorem Every.resume {q : Q} {resume : R → Program Q R A} (h : Every P (.ask q resume)) (r : R) :
    Every P (resume r) := h.2 r

theorem Every.feed {p : Program Q R A} {rs : List R} {a : A} (h : Every P p)
    (hf : p.feed rs = some a) : P (.done a) := by
  induction rs generalizing p with
  | nil =>
    cases p with
    | done b =>
      obtain rfl : b = a := Option.some.inj hf
      exact h.self
    | ask q resume => cases hf
  | cons r rs ih =>
    cases p with
    | done b => cases hf
    | ask q resume => exact ih (h.resume r) hf

end Program
end CloudWeb.Foundation
