import Mathlib.Data.List.Infix

/-! SQL's `LIKE` with the default escape character. A pattern is read into tokens, whose
meaning is a relation; matching is decided by recursion over the tokens. -/
namespace CloudWeb.Foundation.Like

inductive Token
  | exactly (c : Char)
  | single
  | any
  deriving DecidableEq, Repr

/-- A backslash takes the next character literally, and itself where nothing follows. -/
def parse : List Char → List Token
  | [] => []
  | '\\' :: c :: rest => .exactly c :: parse rest
  | '%' :: rest => .any :: parse rest
  | '_' :: rest => .single :: parse rest
  | c :: rest => .exactly c :: parse rest

inductive Matches : List Token → List Char → Prop
  | nil : Matches [] []
  | exactly {ts xs} (c : Char) : Matches ts xs → Matches (.exactly c :: ts) (c :: xs)
  | single {ts xs} (x : Char) : Matches ts xs → Matches (.single :: ts) (x :: xs)
  | any {ts xs} (skipped : List Char) : Matches ts xs → Matches (.any :: ts) (skipped ++ xs)

def check : List Token → List Char → Bool
  | [], xs => xs.isEmpty
  | .exactly c :: ts, xs => match xs with
    | [] => false
    | x :: xs => x = c && check ts xs
  | .single :: ts, xs => match xs with
    | [] => false
    | _ :: xs => check ts xs
  | .any :: ts, xs => xs.tails.any (check ts)

private theorem check_iff {ts : List Token} {xs : List Char} : check ts xs = true ↔ Matches ts xs := by
  induction ts generalizing xs with
  | nil =>
    rw [check,List.isEmpty_iff]
    exact ⟨fun h => h ▸ .nil,fun h => by cases h; rfl⟩
  | cons t ts ih =>
    cases t with
    | exactly c =>
      cases xs with
      | nil => exact iff_of_false Bool.false_ne_true nofun
      | cons x xs =>
        rw [check,Bool.and_eq_true,decide_eq_true_iff,ih]
        constructor
        · rintro ⟨rfl,h⟩
          exact .exactly x h
        · rintro ⟨⟩
          exact ⟨rfl,‹_›⟩
    | single =>
      cases xs with
      | nil => exact iff_of_false Bool.false_ne_true nofun
      | cons x xs =>
        rw [check,ih]
        constructor
        · exact .single x
        · rintro ⟨⟩
          assumption
    | any =>
      rw [check,List.any_eq_true]
      constructor
      · rintro ⟨ys,hys,hc⟩
        obtain ⟨skipped,rfl⟩ := (List.mem_tails _ _).mp hys
        exact .any skipped (ih.mp hc)
      · rintro ⟨⟩
        rename_i ys skipped h
        exact ⟨ys,(List.mem_tails _ _).mpr ⟨skipped,rfl⟩,ih.mpr h⟩

instance (ts : List Token) (xs : List Char) : Decidable (Matches ts xs) := decidable_of_iff _ check_iff

/-- A shortest text that matches. -/
def sample : List Token → List Char
  | [] => []
  | .exactly c :: ts => c :: sample ts
  | .single :: ts => 'x' :: sample ts
  | .any :: ts => sample ts

theorem matches_sample (ts : List Token) : Matches ts (sample ts) := by
  induction ts with
  | nil => exact .nil
  | cons t ts ih =>
    cases t with
    | exactly c => exact .exactly c ih
    | single => exact .single 'x' ih
    | any => exact .any [] ih

theorem Matches.length_le {ts : List Token} {xs : List Char} (h : Matches ts xs) :
    (sample ts).length ≤ xs.length := by
  induction h with
  | nil => exact le_refl _
  | exactly c _ ih => exact Nat.succ_le_succ ih
  | single x _ ih => exact Nat.succ_le_succ ih
  | any skipped _ ih =>
    rw [sample,List.length_append]
    omega

/-! ## Prefix patterns -/

/-- No character has a meaning of its own in a pattern. -/
def Plain (p : List Char) : Prop := ∀ c ∈ p, c ≠ '%' ∧ c ≠ '_' ∧ c ≠ '\\'

instance (p : List Char) : Decidable (Plain p) :=
  List.decidableBAll (fun c => c ≠ '%' ∧ c ≠ '_' ∧ c ≠ '\\') p

def startingWith (p : List Char) : List Token := parse (p ++ ['%'])

theorem Plain.tail {c : Char} {p : List Char} (h : Plain (c :: p)) : Plain p :=
  fun d hd => h d (List.mem_cons_of_mem c hd)

private theorem parse_cons {c : Char} (h : c ≠ '%' ∧ c ≠ '_' ∧ c ≠ '\\') (p : List Char) :
    parse (c :: p) = .exactly c :: parse p := by
  obtain ⟨hp,hu,hb⟩ := h
  rw [parse] <;> simp_all

theorem startingWith_iff {p xs : List Char} (h : Plain p) : Matches (startingWith p) xs ↔ p <+: xs := by
  induction p generalizing xs with
  | nil =>
    have hany : Matches [.any] (xs ++ []) := .any xs .nil
    rw [List.append_nil] at hany
    exact iff_of_true hany List.nil_prefix
  | cons c p ih =>
    have hc := h c List.mem_cons_self
    rw [startingWith,List.cons_append,parse_cons hc]
    constructor
    · rintro ⟨⟩
      exact List.cons_prefix_cons.mpr ⟨rfl,(ih h.tail).mp ‹_›⟩
    · rintro ⟨ys,rfl⟩
      exact .exactly c ((ih h.tail).mpr ⟨ys,rfl⟩)

theorem length_sample_le (p : List Char) : (sample (startingWith p)).length ≤ p.length := by
  unfold startingWith
  induction p using parse.induct with
  | case1 => exact Nat.le_refl 0
  | case2 c p ih => exact Nat.le_succ_of_le (Nat.succ_le_succ ih)
  | case3 p ih => exact Nat.le_succ_of_le ih
  | case4 p ih => exact Nat.succ_le_succ ih
  | case5 c p hb hp hu ih =>
    by_cases hc : c = '\\'
    · subst hc
      -- the backslash escapes the `%` that was appended
      cases p with
      | nil => exact Nat.le_refl 1
      | cons d p => exact absurd rfl (hb d p rfl)
    · rw [List.cons_append,parse_cons ⟨hp,hu,hc⟩]
      exact Nat.succ_le_succ ih

/-- For no other prefix does the pattern mean what it does for a plain one. -/
theorem prefix_sample_iff {p : List Char} : p <+: sample (startingWith p) ↔ Plain p := by
  constructor
  · unfold startingWith
    induction p using parse.induct with
    | case1 => exact fun _ => nofun
    | case2 c p ih =>
      intro h
      have hle : p.length+2 ≤ (sample (startingWith p)).length+1 := h.length_le
      have := length_sample_le p
      omega
    | case3 p ih =>
      intro h
      have hle : p.length+1 ≤ (sample (startingWith p)).length := h.length_le
      have := length_sample_le p
      omega
    | case4 p ih =>
      intro h
      exact absurd (List.cons_prefix_cons.mp h).1 (by decide)
    | case5 c p hb hp hu ih =>
      intro h
      by_cases hc : c = '\\'
      · subst hc
        cases p with
        | nil => exact absurd (List.cons_prefix_cons.mp h).1 (by decide)
        | cons d p => exact absurd rfl (hb d p rfl)
      · rw [List.cons_append,parse_cons ⟨hp,hu,hc⟩] at h
        exact List.forall_mem_cons.mpr ⟨⟨hp,hu,hc⟩,ih (List.cons_prefix_cons.mp h).2⟩
  · exact fun h => (startingWith_iff h).mp (matches_sample _)

theorem matches_of_percent {p : List Char} (h : ∀ c ∈ p, c = '%') (xs : List Char) :
    Matches (startingWith p) xs := by
  induction p with
  | nil => exact (startingWith_iff fun _ hc => absurd hc List.not_mem_nil).mpr List.nil_prefix
  | cons c p ih =>
    obtain rfl := h c List.mem_cons_self
    exact .any [] (ih fun d hd => h d (List.mem_cons_of_mem _ hd))

theorem matches_nil_iff {p : List Char} : Matches (startingWith p) [] ↔ ∀ c ∈ p, c = '%' := by
  refine ⟨?_,fun h => matches_of_percent h []⟩
  unfold startingWith
  generalize hx : ([] : List Char) = xs
  induction p using parse.induct with
  | case1 => exact fun _ => nofun
  | case2 c p ih =>
    rintro ⟨⟩
    cases hx
  | case3 p ih =>
    rintro ⟨⟩
    rename_i ys skipped h
    obtain ⟨rfl,rfl⟩ := List.append_eq_nil_iff.mp hx.symm
    exact List.forall_mem_cons.mpr ⟨rfl,ih h⟩
  | case4 p ih =>
    rintro ⟨⟩
    cases hx
  | case5 c p hb hp hu ih =>
    by_cases hc : c = '\\'
    · subst hc
      cases p with
      | nil =>
        rintro ⟨⟩
        cases hx
      | cons d p => exact absurd rfl (hb d p rfl)
    · rw [List.cons_append,parse_cons ⟨hp,hu,hc⟩]
      rintro ⟨⟩
      cases hx

end CloudWeb.Foundation.Like
