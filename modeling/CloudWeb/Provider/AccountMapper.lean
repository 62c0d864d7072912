import CloudWeb.Foundation.DynamicSql
import Mathlib.Data.List.Sort

/-! The account list of the API provider: `AccountMapper.list` on the `account` table. -/
namespace CloudWeb.Provider
open Foundation Sql MyBatis

/-- A row, as far as the query reads it: `id int NOT NULL`, `name varchar(128) NOT NULL`,
`gender int`. -/
structure Account where
  id : Int32
  name : String
  gender : Option Int32
  name_length : name.length ≤ 128
  deriving DecidableEq

/-- `PRIMARY KEY (id)` -/
structure AccountTable where
  rows : List Account
  primary_key : (rows.map Account.id).Nodup

/-- The fields the mapper reads; those of `BasePage` are the pagination plugin's. -/
structure AccountQueryDto where
  id : Option Int64 := none
  name : Option String := none
  gender : Option Int32 := none
  deriving DecidableEq, Repr

namespace AccountMapper

def elements (params : AccountQueryDto) : List (If (Account → Truth)) :=
  [⟨Ognl.given (.ofNumber (params.id.map Int64.toInt)),
    [.condition fun r => equal (some r.id.toInt64) params.id]⟩,
   ⟨Ognl.given (.ofText params.name),
    [.and,.condition fun r => like (some r.name) (concat params.name (some "%"))]⟩,
   ⟨Ognl.given (.ofNumber (params.gender.map Int32.toInt)),
    [.and,.condition fun r => equal r.gender params.gender]⟩]

/-- The query up to the page: `where`, then `order by id desc`. -/
def list (params : AccountQueryDto) (table : AccountTable) : Option (List Account) :=
  (select (whereElement (elements params)) table.rows).map fun rows =>
    rows.insertionSort fun a b => b.id ≤ a.id

/-- What the clause asks of a row: each parameter that is there and is not 0 or empty. -/
structure Passes (params : AccountQueryDto) (r : Account) : Prop where
  id : ∀ i ∈ params.id, i ≠ 0 → r.id.toInt64 = i
  name : ∀ n ∈ params.name, n ≠ "" → Like.Matches (Like.startingWith n.toList) r.name.toList
  gender : ∀ g ∈ params.gender, g ≠ 0 → r.gender = some g

/-- What the parameters mean. -/
structure Wanted (params : AccountQueryDto) (r : Account) : Prop where
  id : ∀ i ∈ params.id, r.id.toInt64 = i
  name : ∀ n ∈ params.name, n ≠ "" → n.toList <+: r.name.toList
  gender : ∀ g ∈ params.gender, r.gender = some g

/-- The query is well formed for all parameters, and returns the rows that pass in order. -/
theorem list_spec (params : AccountQueryDto) (table : AccountTable) :
    ∃ rows, list params table = some rows ∧ (rows.Pairwise fun a b => b.id ≤ a.id) ∧
      ∀ r, r ∈ rows ↔ r ∈ table.rows ∧ Passes params r := by
  obtain ⟨selected,hs,hmem⟩ := select_chain (Ognl.given (.ofNumber (params.id.map Int64.toInt)))
    (fun r => equal (some r.id.toInt64) params.id)
    [(Ognl.given (.ofText params.name),fun r => like (some r.name) (concat params.name (some "%"))),
      (Ognl.given (.ofNumber (params.gender.map Int32.toInt)),fun r => equal r.gender params.gender)]
    table.rows
  have htotal : Std.Total fun a b : Account => b.id ≤ a.id := ⟨fun a b => Int32.le_total b.id a.id⟩
  have htrans : IsTrans Account fun a b => b.id ≤ a.id := ⟨fun _ _ _ h h' => Int32.le_trans h' h⟩
  refine ⟨_,congrArg (Option.map _) hs,List.pairwise_insertionSort _ selected,fun r => ?_⟩
  have hid := Ognl.given_number Int64.toInt (some r.id.toInt64) params.id
  have hname := Ognl.given_prefix r.name params.name
  have hgender := Ognl.given_number Int32.toInt r.gender params.gender
  rw [List.mem_insertionSort,hmem,List.forall_mem_cons,List.forall_mem_cons,List.forall_mem_singleton,
    hid,hname,hgender]
  refine and_congr_right fun _ => ⟨fun ⟨hi,hn,hg⟩ => ⟨fun i h h0 => ?_,hn,fun g h h0 => ?_⟩,
    fun h => ⟨fun i hi h0 => ?_,h.name,fun g hg h0 => ?_⟩⟩
  · exact Option.some.inj (hi i h fun hz => h0 (Int64.toInt_inj.mp hz))
  · exact hg g h fun hz => h0 (Int32.toInt_inj.mp hz)
  · rw [h.id i hi fun hz => h0 (congrArg Int64.toInt hz)]
  · exact h.gender g hg fun hz => h0 (congrArg Int32.toInt hz)

/-- On every table the query returns the wanted rows and no others. -/
def Exact (params : AccountQueryDto) : Prop :=
  ∀ table, ∃ rows, list params table = some rows ∧ ∀ r, r ∈ rows ↔ r ∈ table.rows ∧ Wanted params r

/-- No number that `!= ''` takes for an empty text, no character with a meaning in `like`. -/
structure Plain (params : AccountQueryDto) : Prop where
  id : params.id ≠ some 0
  name : ∀ n ∈ params.name, Like.Plain n.toList
  gender : params.gender ≠ some 0

/-- The columns have room for a row that the conditions on `id` and `name` select. -/
structure Satisfiable (params : AccountQueryDto) : Prop where
  id : ∀ i ∈ params.id, ∃ c : Int32, c.toInt64 = i
  name : ∀ n ∈ params.name, (Like.sample (Like.startingWith n.toList)).length ≤ 128

section Exactness
variable {params : AccountQueryDto}

private theorem exact_iff_passes : Exact params ↔ ∀ r, Passes params r ↔ Wanted params r := by
  constructor
  · intro h r
    let table : AccountTable := ⟨[r],List.nodup_singleton _⟩
    obtain ⟨rows,hrows,_,hpass⟩ := list_spec params table
    obtain ⟨rows',hrows',hwanted⟩ := h table
    obtain rfl : rows = rows' := Option.some.inj (hrows.symm.trans hrows')
    have hr : r ∈ table.rows := List.mem_singleton.mpr rfl
    have heq := (hpass r).symm.trans (hwanted r)
    simpa only [hr,true_and] using heq
  · intro h table
    obtain ⟨rows,hrows,_,hpass⟩ := list_spec params table
    refine ⟨rows,hrows,fun r => ?_⟩
    rw [hpass,h]

theorem Satisfiable.row (h : Satisfiable params) : ∃ r, Passes params r ∧ r.id ≠ 0 ∧ r.gender ≠ some 0 ∧
    ∀ n ∈ params.name, r.name.toList = Like.sample (Like.startingWith n.toList) := by
  have hid : ∃ c : Int32, c ≠ 0 ∧ ∀ i ∈ params.id, i ≠ 0 → c.toInt64 = i := by
    cases hp : params.id with
    | none => exact ⟨1,by decide,nofun⟩
    | some i =>
      obtain ⟨c,hc⟩ := h.id i hp
      by_cases h0 : c = 0
      · refine ⟨1,by decide,?_⟩
        rintro j ⟨⟩ hj
        exact absurd (hc ▸ congrArg Int32.toInt64 h0) hj
      · refine ⟨c,h0,?_⟩
        rintro j ⟨⟩ _
        exact hc
  have hname : ∃ n : String, n.length ≤ 128 ∧
      ∀ m ∈ params.name, n.toList = Like.sample (Like.startingWith m.toList) := by
    cases hp : params.name with
    | none => exact ⟨"",by decide,nofun⟩
    | some m =>
      refine ⟨String.ofList (Like.sample (Like.startingWith m.toList)),?_,?_⟩
      · rw [String.length_ofList]
        exact h.name m hp
      · rintro j ⟨⟩
        exact String.toList_ofList
  have hgender : ∃ g : Option Int32, g ≠ some 0 ∧ ∀ x ∈ params.gender, x ≠ 0 → g = some x := by
    cases hp : params.gender with
    | none => exact ⟨none,nofun,nofun⟩
    | some x =>
      by_cases h0 : x = 0
      · refine ⟨none,nofun,?_⟩
        rintro y ⟨⟩ hy
        exact absurd h0 hy
      · refine ⟨some x,fun hx => h0 (Option.some.inj hx),?_⟩
        rintro y ⟨⟩ _
        rfl
  obtain ⟨c,hc0,hc⟩ := hid
  obtain ⟨n,hlen,hn⟩ := hname
  obtain ⟨g,hg0,hg⟩ := hgender
  refine ⟨⟨c,n,g,hlen⟩,⟨hc,fun m hm _ => ?_,hg⟩,hc0,hg0,hn⟩
  rw [hn m hm]
  exact Like.matches_sample _

private theorem Passes.satisfiable {r : Account} (h : Passes params r) : Satisfiable params where
  id i hi := by
    by_cases h0 : i = 0
    · exact ⟨0,h0 ▸ rfl⟩
    · exact ⟨r.id,h.id i hi h0⟩
  name n hn := by
    by_cases h0 : n = ""
    · subst h0
      decide
    · have hle := (h.name n hn h0).length_le
      rw [String.length_toList] at hle
      exact hle.trans r.name_length

private theorem Wanted.satisfiable {r : Account} (h : Wanted params r) : Satisfiable params where
  id i hi := ⟨r.id,h.id i hi⟩
  name n hn := by
    by_cases h0 : n = ""
    · subst h0
      decide
    · have hle := (h.name n hn h0).length_le
      have hsample := Like.length_sample_le n.toList
      have hroom := r.name_length
      rw [String.length_toList,String.length_toList] at hle
      rw [String.length_toList] at hsample
      omega

private theorem Plain.passes_iff (h : Plain params) (r : Account) :
    Passes params r ↔ Wanted params r := by
  constructor
  · rintro ⟨hi,hn,hg⟩
    refine ⟨fun i hp => hi i hp ?_,fun n hp h0 => ?_,fun g hp => hg g hp ?_⟩
    · rintro rfl
      exact h.id hp
    · exact (Like.startingWith_iff (h.name n hp)).mp (hn n hp h0)
    · rintro rfl
      exact h.gender hp
  · rintro ⟨hi,hn,hg⟩
    refine ⟨fun i hp _ => hi i hp,fun n hp h0 => ?_,fun g hp _ => hg g hp⟩
    exact (Like.startingWith_iff (h.name n hp)).mpr (hn n hp h0)

end Exactness

/-- The exact condition on the parameters: they are plain, or such that the columns have
no room for a row they select. -/
theorem list_exact_iff (params : AccountQueryDto) : Exact params ↔ (Satisfiable params → Plain params) := by
  rw [exact_iff_passes]
  constructor
  · intro h hs
    obtain ⟨r,hpass,hid,hgender,hname⟩ := hs.row
    have hw := (h r).mp hpass
    refine ⟨fun h0 => ?_,fun n hn => ?_,fun h0 => ?_⟩
    · have hzero : r.id.toInt64 = (0 : Int32).toInt64 := hw.id 0 h0
      have hint := congrArg Int64.toInt hzero
      rw [Int32.toInt_toInt64,Int32.toInt_toInt64] at hint
      exact hid (Int32.toInt_inj.mp hint)
    · by_cases h0 : n = ""
      · subst h0
        nofun
      · have hprefix := hw.name n hn h0
        rw [hname n hn] at hprefix
        exact Like.prefix_sample_iff.mp hprefix
    · exact hgender (hw.gender 0 h0)
  · intro h r
    by_cases hs : Satisfiable params
    · exact (h hs).passes_iff r
    · exact iff_of_false (fun hp => hs hp.satisfiable) fun hw => hs hw.satisfiable

theorem list_exact_three_rows :
    let params : AccountQueryDto := { id := some 2, name := some "li", gender := some 1 }
    let table : AccountTable := ⟨[⟨1,"liu",some 1,by decide⟩,⟨2,"lin",some 1,by decide⟩,
      ⟨3,"lin",none,by decide⟩],by decide⟩
    Exact params ∧ list params table = some [⟨2,"lin",some 1,by decide⟩] := by
  intro params table
  have hname : Like.Plain "li".toList := by decide
  have hplain : Plain params := ⟨by decide,fun n hn => by cases hn; exact hname,by decide⟩
  exact ⟨(list_exact_iff params).mpr fun _ => hplain,by decide⟩

theorem other_rows_selected :
    let r : Account := ⟨1,"ab",some 1,by decide⟩
    let s : Account := ⟨2,"a_",some 0,by decide⟩
    let table : AccountTable := ⟨[r,s],by decide⟩
    list { gender := some 0 } table = some [s,r] ∧ list { id := some 0 } table = some [s,r] ∧
      list { name := some "a_" } table = some [s,r] ∧
      ¬ Wanted { gender := some 0 } r ∧ ¬ Wanted { id := some 0 } r ∧ ¬ Wanted { name := some "a_" } r ∧
      ¬ Exact { gender := some 0 } := by
  intro r s table
  have hgender : ¬ Wanted { gender := some 0 } r := fun h => absurd (h.gender 0 rfl) (by decide)
  refine ⟨by decide,by decide,by decide,hgender,fun h => absurd (h.id 0 rfl) (by decide),
    fun h => absurd (h.name "a_" rfl (by decide)) (by decide),fun hexact => ?_⟩
  obtain ⟨rows,hrows,hmem⟩ := hexact table
  have hlist : list { gender := some 0 } table = some [s,r] := by decide
  obtain rfl : [s,r] = rows := Option.some.inj (hlist.symm.trans hrows)
  exact hgender ((hmem r).mp (List.mem_cons_of_mem s List.mem_cons_self)).2

end AccountMapper
end CloudWeb.Provider
