import CloudWeb.Provider.AccountService

/-! Requests for the account list on their way to the provider: how the parameters are bound
from the texts of a query. -/
namespace CloudWeb.Provider
open Foundation Java

abbrev Query := List (String × String)

/-- `Integer.valueOf(String)`, with `none` for `NumberFormatException`. -/
def parseInteger (s : String) : Option Int :=
  (parseLong s).filter fun n => decide (-2147483648 ≤ n ∧ n ≤ 2147483647)

/-- How Spring sets a number of a parameter object: one that is absent stays as it is, an
empty text is `null`. The outer `none` is a text that is no number. -/
def bindNumber (parse : String → Option Int) (unset : Option Int) : Option String → Option (Option Int)
  | none => some unset
  | some s => if s = "" then some none else (parse s).map some

/-- The parameters of the provider's `list`, as they are bound from a query. -/
def bindQuery (query : Query) : Option (BasePage × AccountQueryDto) := do
  let pageNo ← bindNumber parseLong ({} : BasePage).pageNo (query.lookup "pageNo")
  let pageSize ← bindNumber parseLong ({} : BasePage).pageSize (query.lookup "pageSize")
  let id ← bindNumber parseLong none (query.lookup "id")
  let gender ← bindNumber parseInteger none (query.lookup "gender")
  return (⟨pageNo,pageSize⟩,
    { id := id.map Int64.ofInt, name := query.lookup "name", gender := gender.map Int32.ofInt })

/-- `GET /accounts`, with the response read back as it was written. -/
def exchange (paginate : Pagination) (query : Query) (table : AccountTable) :
    Option (Response (PageDto Account)) :=
  (bindQuery query).map fun p => AccountApi.list paginate p.1 p.2 table

/-! ## Texts that are bound -/

/-- The numbers that `parse` reads back from their text. -/
def Reads (parse : String → Option Int) (o : Option Int) : Prop :=
  ∀ n ∈ o, Long.InRange n ∧ parse (valueOf n) = some n

section Numbers
variable {parse : String → Option Int} {o : Option Int}

theorem bindNumber_valueOf {n : Int} (h : Reads parse (some n)) (unset : Option Int) :
    bindNumber parse unset (some (valueOf n)) = some (some n) := by
  obtain ⟨hn,hparse⟩ := h n rfl
  have hne : valueOf n ≠ "" := by
    intro he
    have hlong := parseLong_valueOf hn
    rw [he] at hlong
    cases hlong
  rw [bindNumber,if_neg hne,hparse]
  rfl

theorem bindNumber_getD (h : Reads parse o) (unset : Option Int) :
    bindNumber parse unset (some ((o.map valueOf).getD "")) = some o := by
  cases o with
  | none => rfl
  | some n => exact bindNumber_valueOf h unset

theorem bindNumber_map (h : Reads parse o) (unset : Option Int) :
    bindNumber parse unset (o.map valueOf) = some (o.or unset) := by
  cases o with
  | none => rfl
  | some n => exact bindNumber_valueOf h unset

private theorem reads_parseLong (h : ∀ n ∈ o, Long.InRange n) : Reads parseLong o :=
  fun n hn => ⟨h n hn,parseLong_valueOf (h n hn)⟩

theorem reads_int64 (o : Option Int64) : Reads parseLong (o.map Int64.toInt) := by
  refine reads_parseLong fun n hn => ?_
  obtain ⟨i,_,rfl⟩ := Option.map_eq_some_iff.mp hn
  exact ⟨Int64.le_toInt i,Int64.toInt_le i⟩

theorem reads_int32 (o : Option Int32) : Reads parseInteger (o.map Int32.toInt) := by
  intro n hn
  obtain ⟨g,_,rfl⟩ := Option.map_eq_some_iff.mp hn
  have hle := Int32.le_toInt g
  have hge := Int32.toInt_le g
  have hrange : Long.InRange g.toInt := ⟨le_trans (by decide) hle,hge.trans (by decide)⟩
  refine ⟨hrange,?_⟩
  rw [parseInteger,parseLong_valueOf hrange]
  exact Option.filter_eq_some_iff.mpr ⟨rfl,decide_eq_true ⟨hle,hge⟩⟩

end Numbers

theorem ofInt_toInt64 (o : Option Int64) : (o.map Int64.toInt).map Int64.ofInt = o := by
  cases o with
  | none => rfl
  | some i => exact congrArg some (Int64.ofInt_toInt i)

theorem ofInt_toInt32 (o : Option Int32) : (o.map Int32.toInt).map Int32.ofInt = o := by
  cases o with
  | none => rfl
  | some g => exact congrArg some (Int32.ofInt_toInt g)

theorem bindQuery_eq {query : Query} {pageNo pageSize id gender : Option Int}
    (hpageNo : bindNumber parseLong (some 1) (query.lookup "pageNo") = some pageNo)
    (hpageSize : bindNumber parseLong (some 10) (query.lookup "pageSize") = some pageSize)
    (hid : bindNumber parseLong none (query.lookup "id") = some id)
    (hgender : bindNumber parseInteger none (query.lookup "gender") = some gender) :
    bindQuery query = some (⟨pageNo,pageSize⟩,
      { id := id.map Int64.ofInt, name := query.lookup "name", gender := gender.map Int32.ofInt }) := by
  simp only [bindQuery,hpageNo,hpageSize,hid,hgender,Option.bind_eq_bind,Option.bind_some]
  rfl

/-- A page the plugin serves. -/
structure InBounds (base : BasePage) : Prop where
  pageNo : ∀ p ∈ base.pageNo, 1 ≤ p ∧ p ≤ Long.MAX_VALUE
  pageSize : ∀ z ∈ base.pageSize, 1 ≤ z ∧ z ≤ 500
  offset : ∀ p ∈ base.pageNo, ∀ z ∈ base.pageSize, p*z ≤ Long.MAX_VALUE

section Bounds
variable {base : BasePage} {paginate : Pagination}

theorem InBounds.reads_pageNo (h : InBounds base) : Reads parseLong base.pageNo :=
  reads_parseLong fun p hp => ⟨le_trans (by decide) (h.pageNo p hp).1,(h.pageNo p hp).2⟩

theorem InBounds.reads_pageSize (h : InBounds base) : Reads parseLong base.pageSize :=
  reads_parseLong fun z hz => ⟨le_trans (by decide) (h.pageSize z hz).1,(h.pageSize z hz).2.trans (by decide)⟩

theorem list_page (hp : paginate.Pages) {p z : Int} (hb : InBounds ⟨some p,some z⟩) (params : AccountQueryDto)
    (table : AccountTable) : AccountApi.list paginate ⟨some p,some z⟩ params table =
      Response.ok (PageDto.build ⟨p,z,(AccountMapper.query params table).length,
        ((AccountMapper.query params table).drop ((p-1)*z).toNat).take z.toNat⟩) := by
  have hz := hb.pageSize z rfl
  rw [AccountApi.list_eq]
  dsimp only
  rw [hp p z _ (hb.pageNo p rfl).1 hz.1 hz.2 (hb.offset p rfl z rfl)]

end Bounds
end CloudWeb.Provider
