import CloudWeb.Foundation.Like

/-! `WHERE` clauses that MyBatis puts together from optional fragments: OGNL's view of a
parameter, the elements `<if>` and `<where>`, and the truth values SQL gives a row. -/
namespace CloudWeb.Foundation

namespace Sql

/-- TRUE and FALSE, or UNKNOWN as `none`. -/
abbrev Truth := Option Bool

/-- `a = b`. A `NULL` on either side makes it UNKNOWN. -/
def equal {α : Type*} [DecidableEq α] (a b : Option α) : Truth :=
  a.bind fun x => b.map fun y => decide (x = y)

def concat (a b : Option String) : Option String := a.bind fun x => b.map fun y => x ++ y

def like (text pattern : Option String) : Truth :=
  text.bind fun t => pattern.map fun p => decide (Like.Matches (Like.parse p.toList) t.toList)

def and : Truth → Truth → Truth
  | some true, b => b
  | some false, _ => some false
  | none, some false => some false
  | none, _ => none

theorem and_eq_true {a b : Truth} : and a b = some true ↔ a = some true ∧ b = some true := by
  rcases a with _ | _ | _ <;> rcases b with _ | _ | _ <;> simp [and]

private theorem equal_some {α : Type*} [DecidableEq α] {a : Option α} {y : α} :
    equal a (some y) = some true ↔ a = some y := by
  cases a with
  | none => simp [equal]
  | some x => simp [equal]

/-- The words of a clause: conditions, and the connectives between them. -/
inductive Word (γ : Type*)
  | and
  | condition (c : γ)

section Clauses
variable {γ ρ : Type*}

/-- Conditions joined by `and`. Anything else is a syntax error. -/
def conjuncts : List (Word γ) → Option (List γ)
  | [.condition c] => some [c]
  | .condition c :: .and :: ws => (conjuncts ws).map (c :: ·)
  | _ => none

/-- No words at all make no clause. -/
def clause : List (Word γ) → Option (List γ)
  | [] => some []
  | ws => conjuncts ws

/-- The rows a clause selects are those it is TRUE of. -/
def select (ws : List (Word (ρ → Truth))) (rows : List ρ) : Option (List ρ) :=
  (clause ws).map fun cs => rows.filter fun r => (cs.map (· r)).foldr and (some true) = some true

private theorem conjuncts_chain (c : γ) (cs : List γ) :
    conjuncts (.condition c :: cs.flatMap fun d => [.and,.condition d]) = some (c :: cs) := by
  induction cs generalizing c with
  | nil => rfl
  | cons d cs ih =>
    rw [List.flatMap_cons,List.cons_append,List.cons_append,List.nil_append,conjuncts,ih d]
    rfl

private theorem foldr_and {ts : List Truth} :
    ts.foldr and (some true) = some true ↔ ∀ t ∈ ts, t = some true := by
  induction ts with
  | nil => exact iff_of_true rfl nofun
  | cons t ts ih => rw [List.foldr_cons,and_eq_true,ih,List.forall_mem_cons]

end Clauses
end Sql

namespace Ognl

inductive Value
  | null
  | number (n : Int)
  | text (s : String)
  deriving DecidableEq, Repr

def Value.ofNumber : Option Int → Value
  | none => .null
  | some n => .number n

def Value.ofText : Option String → Value
  | none => .null
  | some s => .text s

def notNull (v : Value) : Bool := v ≠ .null

/-- `v != ''`, where a number is compared with the number `''` converts to, 0. -/
def notEmpty : Value → Bool
  | .null => true
  | .number n => n ≠ 0
  | .text s => s ≠ ""

/-- `v != null and v != ''` -/
def given (v : Value) : Bool := notNull v && notEmpty v

theorem given_number {α : Type*} [DecidableEq α] (toInt : α → Int) (a o : Option α) :
    (given (.ofNumber (o.map toInt)) = true → Sql.equal a o = some true) ↔
      ∀ x ∈ o, toInt x ≠ 0 → a = some x := by
  cases o with
  | none => exact iff_of_true nofun nofun
  | some x => simp [given,notNull,notEmpty,Value.ofNumber,Sql.equal_some]

theorem given_prefix (t : String) (o : Option String) :
    (given (.ofText o) = true → Sql.like (some t) (Sql.concat o (some "%")) = some true) ↔
      ∀ n ∈ o, n ≠ "" → Like.Matches (Like.startingWith n.toList) t.toList := by
  cases o with
  | none => exact iff_of_true nofun nofun
  | some n => simp [given,notNull,notEmpty,Value.ofText,Sql.like,Sql.concat,Like.startingWith]

end Ognl

namespace MyBatis
variable {γ ρ : Type*}

structure If (γ : Type*) where
  test : Bool
  body : List (Sql.Word γ)

def If.words (e : If γ) : List (Sql.Word γ) := if e.test then e.body else []

def trimAnd : List (Sql.Word γ) → List (Sql.Word γ)
  | .and :: ws => ws
  | ws => ws

/-- `<where>` joins what is left of its elements. -/
def whereElement (elements : List (If γ)) : List (Sql.Word γ) := trimAnd (elements.flatMap If.words)

/-- Elements with an `and` before each condition but the first. -/
def chain (test : Bool) (c : γ) (others : List (Bool × γ)) : List (If γ) :=
  ⟨test,[.condition c]⟩ :: others.map fun e => ⟨e.1,[.and,.condition e.2]⟩

/-- Whatever is left out of a chain, it stays well formed and has just the other conditions. -/
theorem clause_chain (test : Bool) (c : γ) (others : List (Bool × γ)) :
    Sql.clause (whereElement (chain test c others)) =
      some ((((test,c) :: others).filter Prod.fst).map Prod.snd) := by
  have hothers : (others.map fun e => (⟨e.1,[.and,.condition e.2]⟩ : If γ)).flatMap If.words =
      ((others.filter Prod.fst).map Prod.snd).flatMap fun d => [.and,.condition d] := by
    induction others with
    | nil => rfl
    | cons e others ih =>
      rw [List.map_cons,List.flatMap_cons,ih,List.filter_cons,If.words]
      by_cases he : e.1 = true
      · rw [if_pos he,if_pos he]
        rfl
      · rw [if_neg he,if_neg he]
        rfl
  rw [whereElement,chain,List.flatMap_cons,hothers,If.words,List.filter_cons]
  generalize others.filter Prod.fst = left
  by_cases ht : test = true
  · rw [if_pos ht,if_pos ht]
    exact Sql.conjuncts_chain c (left.map Prod.snd)
  · rw [if_neg ht,if_neg ht]
    cases left with
    | nil => rfl
    | cons e left => exact Sql.conjuncts_chain e.2 (left.map Prod.snd)

theorem select_chain (test : Bool) (c : ρ → Sql.Truth) (others : List (Bool × (ρ → Sql.Truth)))
    (rows : List ρ) :
    ∃ selected, Sql.select (whereElement (chain test c others)) rows = some selected ∧
      ∀ r, r ∈ selected ↔ r ∈ rows ∧ ∀ e ∈ (test,c) :: others, e.1 = true → e.2 r = some true := by
  rw [Sql.select,clause_chain]
  refine ⟨_,rfl,fun r => ?_⟩
  rw [List.mem_filter,decide_eq_true_iff,Sql.foldr_and]
  simp only [List.map_map,List.forall_mem_map,List.mem_filter,and_imp,Function.comp_apply]

end MyBatis
end CloudWeb.Foundation
