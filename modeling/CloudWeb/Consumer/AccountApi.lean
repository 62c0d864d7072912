import CloudWeb.Provider.AccountRequest

/-! The consumer's two ways to the provider's account list: `RestTemplate`, with the query
written out in the URL, and the Feign client, which sends every field. -/
namespace CloudWeb.Consumer
open Foundation Java Provider

/-- The text of each property of the parameters, `none` for `null`. -/
def property (base : BasePage) (params : AccountQueryDto) : String → Option String
  | "pageNo" => base.pageNo.map valueOf
  | "pageSize" => base.pageSize.map valueOf
  | "id" => params.id.map fun i => valueOf i.toInt
  | "name" => params.name
  | "gender" => params.gender.map fun g => valueOf g.toInt
  | _ => none

/-! ## The consumer's side -/

/-- Each variable of a URL's query with its text from `map`, empty for `null`. -/
def expand (template : List String) (map : String → Option String) : Query :=
  template.map fun v => (v,(map v).getD "")

/-- What Feign makes of a `@SpringQueryMap`. -/
abbrev QueryMapEncoder := BasePage → AccountQueryDto → Query

/-- The fields that are not `null`, inherited ones too, in any order. -/
def QueryMapEncoder.Encodes (encode : QueryMapEncoder) : Prop :=
  ∀ base params name, (encode base params).lookup name = property base params name

namespace AccountApi

/-- `accounts?pageNo={pageNo}&pageSize={pageSize}&id={id}` -/
def list (paginate : Pagination) (base : BasePage) (params : AccountQueryDto) (table : AccountTable) :
    Option (Response (PageDto Account)) :=
  exchange paginate (expand ["pageNo","pageSize","id"] (property base params)) table

def openFeign (encode : QueryMapEncoder) (paginate : Pagination) (base : BasePage)
    (params : AccountQueryDto) (table : AccountTable) : Option (Response (PageDto Account)) :=
  exchange paginate (encode base params) table

end AccountApi

/-! ## What reaches the provider -/

section Binding
variable {base : BasePage} {params : AccountQueryDto}

private theorem lookup_expand (template : List String) (map : String → Option String) (v : String) :
    (expand template map).lookup v = if v ∈ template then some ((map v).getD "") else none := by
  induction template with
  | nil => rfl
  | cons u template ih =>
    rw [expand,List.map_cons,List.lookup_cons]
    by_cases hv : v = u
    · subst hv
      rw [beq_self_eq_true,if_pos List.mem_cons_self]
    · rw [beq_false_of_ne hv]
      refine ih.trans (if_congr ?_ rfl rfl)
      rw [List.mem_cons,or_iff_right hv]

private theorem property_id (base : BasePage) (params : AccountQueryDto) :
    property base params "id" = (params.id.map Int64.toInt).map valueOf := by
  rw [Option.map_map]
  rfl

private theorem property_gender (base : BasePage) (params : AccountQueryDto) :
    property base params "gender" = (params.gender.map Int32.toInt).map valueOf := by
  rw [Option.map_map]
  rfl

private theorem bind_expand (h : InBounds base) :
    bindQuery (expand ["pageNo","pageSize","id"] (property base params)) = some (base,{ id := params.id }) := by
  have hpage {v : String} (hv : v ∈ ["pageNo","pageSize","id"]) :
      (expand ["pageNo","pageSize","id"] (property base params)).lookup v =
        some ((property base params v).getD "") := by
    rw [lookup_expand,if_pos hv]
  have habsent {v : String} (hv : v ∉ ["pageNo","pageSize","id"]) :
      (expand ["pageNo","pageSize","id"] (property base params)).lookup v = none := by
    rw [lookup_expand,if_neg hv]
  have hpageNo := bindNumber_getD h.reads_pageNo (some 1)
  have hpageSize := bindNumber_getD h.reads_pageSize (some 10)
  have hid := bindNumber_getD (reads_int64 params.id) none
  rw [← property_id base] at hid
  rw [← hpage (by decide)] at hid
  rw [bindQuery_eq (by rw [hpage (by decide)]; exact hpageNo) (by rw [hpage (by decide)]; exact hpageSize) hid
    (by rw [habsent (by decide)]; rfl),habsent (by decide),ofInt_toInt64]
  rfl

private theorem bind_encode {encode : QueryMapEncoder} (he : encode.Encodes) (h : InBounds base) :
    bindQuery (encode base params) =
      some (⟨base.pageNo.or (some 1),base.pageSize.or (some 10)⟩,params) := by
  have hpageNo := bindNumber_map h.reads_pageNo (some 1)
  have hpageSize := bindNumber_map h.reads_pageSize (some 10)
  have hid := bindNumber_map (reads_int64 params.id) none
  have hgender := bindNumber_map (reads_int32 params.gender) none
  rw [← property_id base,← he] at hid
  rw [← property_gender base,← he] at hgender
  rw [bindQuery_eq (by rw [he]; exact hpageNo) (by rw [he]; exact hpageSize) hid hgender,he,
    Option.or_none,Option.or_none,ofInt_toInt64,ofInt_toInt32]
  rfl

end Binding

/-! ## Where both ways agree -/

/-- The two endpoints answer the same, whatever the provider's table. -/
def Agree (paginate : Pagination) (encode : QueryMapEncoder) (base : BasePage)
    (params : AccountQueryDto) : Prop :=
  ∀ table, AccountApi.list paginate base params table = AccountApi.openFeign encode paginate base params table

def Fits (params : AccountQueryDto) : Prop := ∀ i ∈ params.id, ∃ c : Int32, c.toInt64 = i

/-- Neither the name nor the gender keeps a row out. -/
structure Unfiltered (params : AccountQueryDto) : Prop where
  name : ∀ n ∈ params.name, ∀ c ∈ n.toList, c = '%'
  gender : ∀ g ∈ params.gender, g = 0

section Agreement
open AccountMapper
variable {base : BasePage} {params : AccountQueryDto}

private theorem query_congr {params' : AccountQueryDto} (h : ∀ r, Passes params r ↔ Passes params' r)
    (table : AccountTable) : query params table = query params' table := by
  let before (a b : Account) : Prop := b.id.toInt < a.id.toInt
  have : Std.Irrefl before := ⟨fun a => lt_irrefl a.id.toInt⟩
  have : Std.Antisymm before := ⟨fun _ _ hab hba => absurd hab hba.asymm⟩
  refine List.Pairwise.eq_of_mem_iff (r := before) (query_descending params table)
    (query_descending params' table) fun r => ?_
  rw [mem_query,mem_query,h]

private theorem passes_iff_of_length {params' : AccountQueryDto} (h : ∀ table,
    (query params table).length = (query params' table).length) (r : Account) :
    Passes params r ↔ Passes params' r := by
  -- a table with this one row tells the two apart
  let table : AccountTable := ⟨[r],List.nodup_singleton _⟩
  have hone (q : AccountQueryDto) : Passes q r ↔ (query q table).length ≠ 0 := by
    rw [Ne,List.length_eq_zero_iff]
    constructor
    · intro hr
      exact List.ne_nil_of_mem (mem_query.mpr ⟨List.mem_singleton.mpr rfl,hr⟩)
    · intro hne
      obtain ⟨x,hx⟩ := List.exists_mem_of_ne_nil _ hne
      obtain ⟨hmem,hpass⟩ := mem_query.mp hx
      exact List.mem_singleton.mp hmem ▸ hpass
  rw [hone,hone,h]

private theorem passes_id_iff : (∀ r, Passes { id := params.id } r ↔ Passes params r) ↔
    (Fits params → Unfiltered params) := by
  constructor
  · intro h hfits
    obtain ⟨c,hc⟩ : ∃ c : Int32, ∀ i ∈ params.id, i ≠ 0 → c.toInt64 = i := by
      cases hp : params.id with
      | none => exact ⟨0,fun i hi => absurd hi (Option.not_mem_none i)⟩
      | some i =>
        obtain ⟨c,hc⟩ := hfits i hp
        refine ⟨c,fun j hj _ => ?_⟩
        cases hj
        exact hc
    -- the row that nothing but its id speaks for
    have hr := (h ⟨c,"",none,by decide⟩).mp
      ⟨hc,fun n hn => absurd hn (Option.not_mem_none n),fun g hg => absurd hg (Option.not_mem_none g)⟩
    refine ⟨fun n hn => ?_,fun g hg => ?_⟩
    · by_cases h0 : n = ""
      · subst h0
        exact fun _ hc => absurd hc List.not_mem_nil
      · exact Like.matches_nil_iff.mp (hr.name n hn h0)
    · by_contra h0
      exact absurd (hr.gender g hg h0) (Option.some_ne_none g).symm
  · intro h r
    refine ⟨fun hr => ?_,fun hr => ⟨hr.id,fun n hn => absurd hn (Option.not_mem_none n),
      fun g hg => absurd hg (Option.not_mem_none g)⟩⟩
    have hfits : Fits params := by
      intro i hi
      by_cases h0 : i = 0
      · exact ⟨0,h0 ▸ rfl⟩
      · exact ⟨r.id,hr.id i hi h0⟩
    obtain ⟨hname,hgender⟩ := h hfits
    refine ⟨hr.id,fun n hn _ => Like.matches_of_percent (hname n hn) _,fun g hg h0 => ?_⟩
    exact absurd (hgender g hg) h0

variable {paginate : Pagination} {encode : QueryMapEncoder}

private theorem list_eq_provider (hb : InBounds base) (table : AccountTable) :
    AccountApi.list paginate base params table =
      some (Provider.AccountApi.list paginate base { id := params.id } table) := by
  rw [AccountApi.list,exchange,bind_expand hb]
  rfl

private theorem openFeign_eq_provider (he : encode.Encodes) (hb : InBounds base) (table : AccountTable) :
    AccountApi.openFeign encode paginate base params table = some (Provider.AccountApi.list paginate
      ⟨base.pageNo.or (some 1),base.pageSize.or (some 10)⟩ params table) := by
  rw [AccountApi.openFeign,exchange,bind_encode he hb]
  rfl

private theorem list_code (table : AccountTable) :
    (Provider.AccountApi.list paginate base params table).code = Response.CODE_SUCCESS ↔
      base.pageNo ≠ none ∧ base.pageSize ≠ none := by
  rw [Provider.AccountApi.list_eq]
  rcases base with ⟨_ | p,_ | z⟩ <;>
    simp [Response.ok,Response.build,Response.CODE_SUCCESS,Response.CODE_SYSTEM_ERROR]

private theorem Agree.given (h : Agree paginate encode base params) (he : encode.Encodes)
    (hb : InBounds base) :
    base.pageNo ≠ none ∧ base.pageSize ≠ none := by
  have hone := h ⟨[],List.nodup_nil⟩
  rw [list_eq_provider hb,openFeign_eq_provider he hb] at hone
  apply list_code (⟨[],List.nodup_nil⟩ : AccountTable) |>.mp
  rw [Option.some.inj hone,list_code]
  exact ⟨by cases base.pageNo <;> exact Option.some_ne_none _,by cases base.pageSize <;> exact Option.some_ne_none _⟩

private theorem agree_iff_passes (hp : paginate.Pages) (he : encode.Encodes) {p z : Int}
    (hb : InBounds ⟨some p,some z⟩) : Agree paginate encode ⟨some p,some z⟩ params ↔
      ∀ r, Passes { id := params.id } r ↔ Passes params r := by
  constructor
  · intro h
    refine passes_iff_of_length fun table => ?_
    have hone := h table
    rw [list_eq_provider hb,openFeign_eq_provider he hb] at hone
    have hsame := Option.some.inj hone
    dsimp only [Option.or] at hsame
    rw [list_page hp hb,list_page hp hb] at hsame
    have hdata := Option.some.inj (congrArg Response.data hsame)
    exact Int.ofNat.inj (congrArg PageDto.total hdata)
  · intro h table
    rw [list_eq_provider hb,openFeign_eq_provider he hb]
    dsimp only [Option.or]
    rw [list_page hp hb,list_page hp hb,query_congr h]

end Agreement

/-- The URL of `list` leaves out the name and the gender, and sends an empty page for
`null`: the two endpoints agree on every table exactly if the page is given and neither
condition matters, or no row can have the id. -/
theorem endpoints_agree_iff {paginate : Pagination} (hp : paginate.Pages) {encode : QueryMapEncoder}
    (he : encode.Encodes) (base : BasePage) (hb : InBounds base) (params : AccountQueryDto) :
    Agree paginate encode base params ↔
      base.pageNo ≠ none ∧ base.pageSize ≠ none ∧ (Fits params → Unfiltered params) := by
  rcases base with ⟨_ | p,_ | z⟩
  · exact iff_of_false (fun h => (h.given he hb).1 rfl) fun h => h.1 rfl
  · exact iff_of_false (fun h => (h.given he hb).1 rfl) fun h => h.1 rfl
  · exact iff_of_false (fun h => (h.given he hb).2 rfl) fun h => h.2.1 rfl
  · rw [agree_iff_passes hp he hb,passes_id_iff]
    exact ⟨fun h => ⟨Option.some_ne_none p,Option.some_ne_none z,h⟩,fun h => h.2.2⟩

def queryMap : QueryMapEncoder := fun base params =>
  ["pageNo","pageSize","id","name","gender"].filterMap fun v => (property base params v).map fun t => (v,t)

private theorem queryMap_encodes : queryMap.Encodes := by
  intro base params name
  have hlookup (fields : List String) :
      (fields.filterMap fun v => (property base params v).map fun t => (v,t)).lookup name =
        if name ∈ fields then property base params name else none := by
    induction fields with
    | nil => rfl
    | cons v fields ih =>
      by_cases hv : name = v
      · subst hv
        rw [if_pos List.mem_cons_self,List.filterMap_cons]
        cases hp : property base params name with
        | none =>
          refine ih.trans ?_
          rw [hp,ite_self]
        | some t => exact List.lookup_cons_self
      · have hmem : name ∈ v :: fields ↔ name ∈ fields := by rw [List.mem_cons,or_iff_right hv]
        rw [List.filterMap_cons,if_congr hmem rfl rfl,← ih]
        cases property base params v with
        | none => rfl
        | some t =>
          dsimp only [Option.map_some]
          rw [List.lookup_cons,beq_false_of_ne hv]
  refine (hlookup _).trans ?_
  split
  · rfl
  · next hno =>
    simp only [List.mem_cons,List.not_mem_nil,or_false,not_or] at hno
    obtain ⟨h₁,h₂,h₃,h₄,h₅⟩ := hno
    unfold property
    split <;> first | contradiction | rfl

theorem endpoints_agree_without_filters :
    Agree AccountApi.pageOf queryMap {} { id := some 2, name := some "%", gender := some 0 } ∧
      ¬ Agree AccountApi.pageOf queryMap {} { name := some "li" } := by
  have hb : InBounds {} := ⟨by decide,by decide,by decide⟩
  have hiff := endpoints_agree_iff (fun _ _ _ _ _ _ _ => rfl) queryMap_encodes {} hb
  refine ⟨(hiff _).mpr ⟨by decide,by decide,fun _ => ⟨?_,?_⟩⟩,fun h => ?_⟩
  · rintro n ⟨⟩
    exact fun c hc => List.mem_singleton.mp hc
  · rintro g ⟨⟩
    rfl
  · have hname := (((hiff _).mp h).2.2 fun i hi => absurd hi (Option.not_mem_none i)).name "li" rfl
    exact absurd (hname 'l' List.mem_cons_self) (by decide)

end CloudWeb.Consumer
