import CloudWeb.Provider.AccountRequest

/-! The page `index.html`: its Vue instance, the URL it asks for the list with, and its
requests in flight, which are served and answered one by one. -/
namespace CloudWeb.Provider
open Foundation Java

/-- What a field of the form holds: nothing yet, a text, or the code of an option. -/
inductive Input
  | undefined
  | text (s : String)
  | code (n : Int)
  deriving DecidableEq, Repr

structure QueryBean where
  id : Input := .undefined
  name : Input := .undefined
  gender : Input := .undefined
  deriving DecidableEq, Repr

/-- A row of the list in JSON. The dialog writes into it unchecked. -/
structure Record where
  id : Int32
  name : String
  gender : Option Int32
  deriving DecidableEq

def Account.record (r : Account) : Record := ⟨r.id,r.name,r.gender⟩

/-- The data of `vm`. Of `editUser`, which record of `list` it is, if it is one of them. -/
structure Vm where
  queryBean : QueryBean := {}
  list : List Record := []
  total : Int := 0
  pageNo : Int := 1
  pageSize : Int := 10
  editUser : Option Nat := none
  deriving DecidableEq

namespace Vm

/-- `(str) ? str : ''`, as the concatenation writes it. -/
def getStringVal : Input → String
  | .undefined => ""
  | .text s => s
  | .code n => if n = 0 then "" else valueOf n

/-- The URL of `getListData`. Nothing is escaped. -/
def url (vm : Vm) : String :=
  let queryParams := "&id=" ++ getStringVal vm.queryBean.id ++ "&name=" ++ getStringVal vm.queryBean.name ++
    "&gender=" ++ getStringVal vm.queryBean.gender
  "accounts?pageNo=" ++ valueOf vm.pageNo ++ "&pageSize=" ++ valueOf vm.pageSize ++ queryParams

/-- What `getListData` does with the answer. Without data it throws, which is only logged.
A record that is being edited belongs to the list no longer. -/
def answered (vm : Vm) (response : Option (Response (PageDto Account))) : Vm :=
  match response.bind Response.data with
  | some pageData =>
    { vm with list := pageData.records.map Account.record, total := pageData.total, editUser := none }
  | none => vm

def edit (vm : Vm) (name : String) (gender : Option Int32) : Vm :=
  match vm.editUser with
  | some k => { vm with list := vm.list.modify k fun r => { r with name := name, gender := gender } }
  | none => vm

end Vm

/-! ## The query of a URL -/

/-- What the provider is handed of a URL that the browser is given; `none` where one of
them refuses it. -/
abbrev Receiver := String → Option Query

def Clean (s : String) : Prop := ∀ c ∈ s.toList, c.isAlphanum ∨ c ∈ ['-','.','_','~'] ∨ 128 ≤ c.toNat

/-- Clean names and values arrive. -/
def Receiver.Receives (receive : Receiver) : Prop :=
  ∀ fields : Query, fields ≠ [] → (∀ f ∈ fields, f.1 ≠ "" ∧ Clean f.1 ∧ Clean f.2) →
    receive ("accounts?" ++ "&".intercalate (fields.map fun f => f.1 ++ "=" ++ f.2)) = some fields

def respond (receive : Receiver) (paginate : Pagination) (url : String) (table : AccountTable) :
    Option (Response (PageDto Account)) :=
  (receive url).bind fun query => exchange paginate query table

/-- The form says what the parameters are. -/
structure QueryBean.Spells (q : QueryBean) (params : AccountQueryDto) : Prop where
  id : Vm.getStringVal q.id = ((params.id.map Int64.toInt).map valueOf).getD ""
  name : params.name = some (Vm.getStringVal q.name)
  clean : Clean (Vm.getStringVal q.name)
  gender : Vm.getStringVal q.gender = ((params.gender.map Int32.toInt).map valueOf).getD ""

section Asking
variable {receive : Receiver} {paginate : Pagination} {vm : Vm} {params : AccountQueryDto}

private theorem clean_valueOf (n : Int) : Clean (valueOf n) := by
  have hdigits (m : Nat) : ∀ c ∈ Nat.toDigits 10 m, c.isAlphanum := by
    intro c hc
    rw [Char.isAlphanum,Nat.isDigit_of_mem_toDigits (by decide) (by decide) hc,Bool.or_true]
  intro c hc
  unfold valueOf at hc
  split at hc <;> rw [String.toList_ofList] at hc
  · rcases List.mem_cons.mp hc with rfl | hc
    · exact .inr (.inl (by decide))
    · exact .inl (hdigits _ c hc)
  · exact .inl (hdigits _ c hc)

private theorem clean_getD (o : Option Int) : Clean ((o.map valueOf).getD "") := by
  cases o with
  | none => exact fun _ hc => absurd hc List.not_mem_nil
  | some n => exact clean_valueOf n

/-- The query of the URL, field by field. -/
def Vm.fields (vm : Vm) : Query :=
  [("pageNo",valueOf vm.pageNo),("pageSize",valueOf vm.pageSize),("id",getStringVal vm.queryBean.id),
   ("name",getStringVal vm.queryBean.name),("gender",getStringVal vm.queryBean.gender)]

private theorem url_join (pageNo pageSize id name gender : String) :
    "accounts?pageNo=" ++ pageNo ++ "&pageSize=" ++ pageSize ++
        ("&id=" ++ id ++ "&name=" ++ name ++ "&gender=" ++ gender) =
      "accounts?" ++ "&".intercalate ["pageNo" ++ "=" ++ pageNo,"pageSize" ++ "=" ++ pageSize,
        "id" ++ "=" ++ id,"name" ++ "=" ++ name,"gender" ++ "=" ++ gender] := by
  apply String.toList_inj.mp
  simp

private theorem url_eq (vm : Vm) :
    vm.url = "accounts?" ++ "&".intercalate (vm.fields.map fun f => f.1 ++ "=" ++ f.2) :=
  url_join _ _ _ _ _

private theorem clean_fields (h : vm.queryBean.Spells params) :
    ∀ f ∈ vm.fields, f.1 ≠ "" ∧ Clean f.1 ∧ Clean f.2 := by
  have hnames : ∀ v ∈ ["pageNo","pageSize","id","name","gender"],
      v ≠ "" ∧ v.toList.all Char.isAlphanum := by decide
  have hid := clean_getD (params.id.map Int64.toInt)
  have hgender := clean_getD (params.gender.map Int32.toInt)
  rw [← h.id] at hid
  rw [← h.gender] at hgender
  have hvalues : ∀ f ∈ vm.fields, Clean f.2 := by
    rw [Vm.fields,List.forall_mem_cons,List.forall_mem_cons,List.forall_mem_cons,List.forall_mem_cons,
      List.forall_mem_singleton]
    exact ⟨clean_valueOf _,clean_valueOf _,hid,h.clean,hgender⟩
  intro f hf
  have hmem : f.1 ∈ vm.fields.map Prod.fst := List.mem_map_of_mem hf
  obtain ⟨hne,hname⟩ := hnames f.1 hmem
  exact ⟨hne,fun c hc => .inl (List.all_eq_true.mp hname c hc),hvalues f hf⟩

private theorem bind_fields (hb : InBounds ⟨some vm.pageNo,some vm.pageSize⟩)
    (h : vm.queryBean.Spells params) :
    bindQuery vm.fields = some (⟨some vm.pageNo,some vm.pageSize⟩,params) := by
  have hpageNo : bindNumber parseLong (some 1) (some (valueOf vm.pageNo)) = some (some vm.pageNo) :=
    bindNumber_valueOf hb.reads_pageNo (some 1)
  have hpageSize : bindNumber parseLong (some 10) (some (valueOf vm.pageSize)) = some (some vm.pageSize) :=
    bindNumber_valueOf hb.reads_pageSize (some 10)
  have hid := bindNumber_getD (reads_int64 params.id) none
  have hgender := bindNumber_getD (reads_int32 params.gender) none
  rw [← h.id] at hid
  rw [← h.gender] at hgender
  have hbind : bindQuery vm.fields = _ := bindQuery_eq hpageNo hpageSize hid hgender
  rw [hbind,ofInt_toInt64,ofInt_toInt32]
  obtain ⟨id,name,gender⟩ := params
  obtain rfl : name = some (Vm.getStringVal vm.queryBean.name) := h.name
  rfl

private theorem respond_url (hr : receive.Receives) (hb : InBounds ⟨some vm.pageNo,some vm.pageSize⟩)
    (h : vm.queryBean.Spells params) (table : AccountTable) :
    respond receive paginate vm.url table =
      some (AccountApi.list paginate ⟨some vm.pageNo,some vm.pageSize⟩ params table) := by
  rw [respond,url_eq,hr vm.fields (List.cons_ne_nil _ _) (clean_fields h),Option.bind_some,exchange,
    bind_fields hb h]
  rfl

end Asking

/-! ## The page and its requests -/

/-- A request of `getListData`, and the table it was served from. -/
structure Flight where
  url : String
  served : Option AccountTable := none

/-- The page in front of the provider. `flights` are its requests without an answer, the
newest first; `sent` is the form the newest one was made from, `since` are the tables from
then on. -/
structure Browser where
  vm : Vm := {}
  table : AccountTable
  flights : List Flight := []
  sent : QueryBean := {}
  since : List AccountTable := []

namespace Browser

/-- It is also what follows when `create`, `update` or `handleDelete` is answered. -/
def getListData (s : Browser) : Browser :=
  { s with flights := ⟨s.vm.url,none⟩ :: s.flights, sent := s.vm.queryBean, since := [s.table] }

def mounted (table : AccountTable) : Browser := getListData { table := table }

def pageSizes : List Int := [3,5,10,50,100]

/-- What the user does, what is done to the table, and what becomes of request `k`. -/
inductive Label
  | queryBean (q : QueryBean)
  | getListData
  | handleSizeChange (pageSize : Int)
  | handleCurrentChange (pageNo : Int)
  | handleAdd
  | handleUpdate (k : Nat)
  | editUser (name : String) (gender : Option Int32)
  | change (table : AccountTable)
  | serve (k : Nat)
  | answer (k : Nat)
  | fail (k : Nat)

/-- The pagination has at most as many pages as there are ids. -/
def step (receive : Receiver) (paginate : Pagination) (s : Browser) : Label → Option Browser
  | .queryBean q => some { s with vm := { s.vm with queryBean := q } }
  | .getListData => some s.getListData
  | .handleSizeChange pageSize =>
    if pageSize ∈ pageSizes then
      some (getListData { s with vm := { s.vm with pageSize := pageSize } })
    else none
  | .handleCurrentChange pageNo =>
    if 1 ≤ pageNo ∧ pageNo ≤ 4294967296 then
      some (getListData { s with vm := { s.vm with pageNo := pageNo } })
    else none
  | .handleAdd => some { s with vm := { s.vm with editUser := none } }
  | .handleUpdate k =>
    if k < s.vm.list.length then some { s with vm := { s.vm with editUser := some k } } else none
  | .editUser name gender => some { s with vm := s.vm.edit name gender }
  | .change table => some { s with table := table, since := table :: s.since }
  | .serve k =>
    some { s with flights := s.flights.modify k fun f => { f with served := some s.table } }
  | .answer k => do
    let f ← s.flights[k]?
    let table ← f.served
    return { s with
      vm := s.vm.answered (respond receive paginate f.url table)
      flights := s.flights.eraseIdx k }
  | .fail k => some { s with flights := s.flights.eraseIdx k }

/-- The newest request is answered, and after all others. No record of the list is
written into while no answer is to come. -/
def NewestLast (s : Browser) : Label → Prop
  | .answer 0 => s.flights.length = 1
  | .fail k => k ≠ 0
  | .editUser _ _ => s.flights ≠ [] ∨ s.vm.editUser = none
  | _ => True

instance (s : Browser) (a : Label) : Decidable (NewestLast s a) :=
  match a with
  | .answer 0 => inferInstanceAs (Decidable (s.flights.length = 1))
  | .fail k => inferInstanceAs (Decidable (k ≠ 0))
  | .editUser _ _ => inferInstanceAs (Decidable (s.flights ≠ [] ∨ s.vm.editUser = none))
  | .answer (_+1) | .queryBean _ | .getListData | .handleSizeChange _ | .handleCurrentChange _
  | .handleAdd | .handleUpdate _ | .change _ | .serve _ => isTrue trivial

/-- What the newest request asks. -/
def question (s : Browser) : Vm := { s.vm with queryBean := s.sent }

structure Current (receive : Receiver) (paginate : Pagination) (s : Browser) : Prop where
  pageNo : 1 ≤ s.vm.pageNo ∧ s.vm.pageNo ≤ 4294967296
  pageSize : s.vm.pageSize ∈ pageSizes
  table : s.table ∈ s.since
  newest : ∀ f ∈ s.flights.head?, f.url = s.question.url ∧ ∀ t ∈ f.served, t ∈ s.since
  rest : s.flights = [] → ∃ t ∈ s.since,
    ∀ dto ∈ (respond receive paginate s.question.url t).bind Response.data,
      s.vm.list = dto.records.map Account.record ∧ s.vm.total = dto.total

section Runs
variable {receive : Receiver} {paginate : Pagination} {s : Browser}

private theorem url_congr {vm vm' : Vm} (hno : vm'.pageNo = vm.pageNo)
    (hsize : vm'.pageSize = vm.pageSize)
    (q : QueryBean) : ({ vm' with queryBean := q } : Vm).url = ({ vm with queryBean := q } : Vm).url := by
  have hfields : ({ vm' with queryBean := q } : Vm).fields = ({ vm with queryBean := q } : Vm).fields := by
    rw [Vm.fields,Vm.fields,hno,hsize]
  rw [url_eq,url_eq,hfields]

private theorem answered_page (vm : Vm) (response : Option (Response (PageDto Account))) :
    (vm.answered response).pageNo = vm.pageNo ∧ (vm.answered response).pageSize = vm.pageSize := by
  rw [Vm.answered]
  split <;> exact ⟨rfl,rfl⟩

private theorem answered_data {vm : Vm} {response : Option (Response (PageDto Account))}
    {dto : PageDto Account} (h : response.bind Response.data = some dto) :
    (vm.answered response).list = dto.records.map Account.record ∧
      (vm.answered response).total = dto.total := by
  rw [Vm.answered,h]
  exact ⟨rfl,rfl⟩

private theorem Current.of_vm (h : Current receive paginate s) {vm : Vm} (hno : vm.pageNo = s.vm.pageNo)
    (hsize : vm.pageSize = s.vm.pageSize)
    (hlist : s.flights = [] → vm.list = s.vm.list ∧ vm.total = s.vm.total) :
    Current receive paginate { s with vm := vm } := by
  have hurl : ({ s with vm := vm } : Browser).question.url = s.question.url := url_congr hno hsize s.sent
  refine ⟨hno ▸ h.pageNo,hsize ▸ h.pageSize,h.table,?_,fun hnil => ?_⟩
  · rw [hurl]
    exact h.newest
  · obtain ⟨t,ht,hdata⟩ := h.rest hnil
    rw [hurl,(hlist hnil).1,(hlist hnil).2]
    exact ⟨t,ht,hdata⟩

private theorem Current.of_flights (h : Current receive paginate s) {flights : List Flight}
    (hhead : flights.head? = s.flights.head?) : Current receive paginate { s with flights := flights } := by
  refine ⟨h.pageNo,h.pageSize,h.table,?_,fun hnil => h.rest ?_⟩
  · exact hhead ▸ h.newest
  · exact List.head?_eq_none_iff.mp (hhead ▸ List.head?_eq_none_iff.mpr hnil)

private theorem Current.of_getListData (hno : 1 ≤ s.vm.pageNo ∧ s.vm.pageNo ≤ 4294967296)
    (hsize : s.vm.pageSize ∈ pageSizes) : Current receive paginate s.getListData := by
  refine ⟨hno,hsize,List.mem_singleton.mpr rfl,?_,fun hnil => absurd hnil (List.cons_ne_nil _ _)⟩
  rintro f ⟨⟩
  exact ⟨rfl,fun t ht => absurd ht (Option.not_mem_none t)⟩

private theorem Current.edited (h : Current receive paginate s) (name : String) (gender : Option Int32)
    (ha : s.flights ≠ [] ∨ s.vm.editUser = none) :
    Current receive paginate { s with vm := s.vm.edit name gender } := by
  refine h.of_vm ?_ ?_ fun hnil => ?_
  · rw [Vm.edit]
    split <;> rfl
  · rw [Vm.edit]
    split <;> rfl
  · rw [Vm.edit,ha.resolve_left (not_not.mpr hnil)]
    exact ⟨rfl,rfl⟩

private theorem Current.changed (h : Current receive paginate s) (table : AccountTable) :
    Current receive paginate { s with table := table, since := table :: s.since } := by
  refine ⟨h.pageNo,h.pageSize,List.mem_cons_self,fun f hf => ?_,fun hnil => ?_⟩
  · obtain ⟨hurl,hserved⟩ := h.newest f hf
    exact ⟨hurl,fun t ht => List.mem_cons_of_mem table (hserved t ht)⟩
  · obtain ⟨t,ht,hdata⟩ := h.rest hnil
    exact ⟨t,List.mem_cons_of_mem table ht,hdata⟩

private theorem Current.served (h : Current receive paginate s) (k : Nat) :
    Current receive paginate
      { s with flights := s.flights.modify k fun f => { f with served := some s.table } } := by
  cases hflights : s.flights with
  | nil => exact h.of_flights (by rw [hflights,List.modify_nil])
  | cons f flights =>
    cases k with
    | zero =>
      refine ⟨h.pageNo,h.pageSize,h.table,?_,fun hnil => absurd hnil (List.cons_ne_nil _ _)⟩
      rintro _ ⟨⟩
      refine ⟨(h.newest f (hflights ▸ rfl)).1,?_⟩
      rintro _ ⟨⟩
      exact h.table
    | succ k => exact h.of_flights (by rw [hflights]; rfl)

private theorem Current.answered (h : Current receive paginate s) {k : Nat}
    (ha : NewestLast s (.answer k))
    {f : Flight} (hf : s.flights[k]? = some f) {table : AccountTable} (htable : f.served = some table) :
    Current receive paginate { s with
      vm := s.vm.answered (respond receive paginate f.url table), flights := s.flights.eraseIdx k } := by
  obtain ⟨hno,hsize⟩ := answered_page s.vm (respond receive paginate f.url table)
  cases hflights : s.flights with
  | nil =>
    rw [hflights] at hf
    cases hf
  | cons g flights =>
    rw [hflights] at hf
    cases k with
    | zero =>
      obtain rfl : g = f := Option.some.inj hf
      obtain ⟨hurl,hserved⟩ := h.newest g (hflights ▸ rfl)
      have hlast : flights = [] := by
        rw [NewestLast,hflights] at ha
        exact List.length_eq_zero_iff.mp (Nat.succ.inj ha)
      subst hlast
      refine ⟨hno ▸ h.pageNo,hsize ▸ h.pageSize,h.table,fun f hf => absurd hf (Option.not_mem_none f),
        fun _ => ⟨table,hserved table htable,fun dto hdto => ?_⟩⟩
      rw [question,url_congr hno hsize] at hdto
      exact answered_data (hurl ▸ hdto)
    | succ k =>
      have hne : s.flights ≠ [] := hflights ▸ List.cons_ne_nil g flights
      have hvm := h.of_vm hno hsize fun hnil => absurd hnil hne
      exact hvm.of_flights (by rw [hflights]; rfl)

private theorem Current.failed (h : Current receive paginate s) {k : Nat} (hk : k ≠ 0) :
    Current receive paginate { s with flights := s.flights.eraseIdx k } := by
  refine h.of_flights ?_
  cases k with
  | zero => exact absurd rfl hk
  | succ k => cases s.flights <;> rfl

private theorem step_current (s : Browser) (a : Label) (t : Browser) (h : Current receive paginate s)
    (ha : NewestLast s a) (hs : step receive paginate s a = some t) : Current receive paginate t := by
  cases a with
  | queryBean q =>
    cases hs
    exact h.of_vm rfl rfl fun _ => ⟨rfl,rfl⟩
  | getListData =>
    cases hs
    exact Current.of_getListData h.pageNo h.pageSize
  | handleSizeChange pageSize =>
    rw [step] at hs
    split at hs <;> cases hs
    next hsize => exact Current.of_getListData h.pageNo hsize
  | handleCurrentChange pageNo =>
    rw [step] at hs
    split at hs <;> cases hs
    next hno => exact Current.of_getListData hno h.pageSize
  | handleAdd =>
    cases hs
    exact h.of_vm rfl rfl fun _ => ⟨rfl,rfl⟩
  | handleUpdate k =>
    rw [step] at hs
    split at hs <;> cases hs
    exact h.of_vm rfl rfl fun _ => ⟨rfl,rfl⟩
  | editUser name gender =>
    cases hs
    exact h.edited name gender ha
  | change table =>
    cases hs
    exact h.changed table
  | serve k =>
    cases hs
    exact h.served k
  | answer k =>
    simp only [step,Option.bind_eq_bind,Option.bind_eq_some_iff] at hs
    obtain ⟨f,hf,table,htable,hs⟩ := hs
    cases hs
    exact h.answered ha hf htable
  | fail k =>
    cases hs
    exact h.failed ha

private theorem Current.inBounds (h : Current receive paginate s) :
    InBounds ⟨some s.vm.pageNo,some s.vm.pageSize⟩ := by
  have hsize : ∀ z ∈ pageSizes, 1 ≤ z ∧ z ≤ 100 := by decide
  obtain ⟨h1,hle⟩ := h.pageNo
  obtain ⟨hz1,hz⟩ := hsize _ h.pageSize
  constructor
  · rintro _ ⟨⟩
    exact ⟨h1,hle.trans (by decide)⟩
  · rintro _ ⟨⟩
    exact ⟨hz1,hz.trans (by decide)⟩
  · rintro _ ⟨⟩ _ ⟨⟩
    calc s.vm.pageNo*s.vm.pageSize ≤ 4294967296*100 := mul_le_mul hle hz (by omega) (by decide)
      _ ≤ Long.MAX_VALUE := by decide

end Runs

/-- However the answers overtake each other, as long as the newest request is answered and
after all others: once none is to come, the page shows the chosen page of what the form
asked for, with its total, of a table that was there after it asked. -/
theorem list_shown_at_rest {receive : Receiver} (hr : receive.Receives) {paginate : Pagination}
    (hp : paginate.Pages) (table : AccountTable) (as : List Label) (s : Browser)
    (hok : StepsMeet (step receive paginate) NewestLast (mounted table) as)
    (h : exec (step receive paginate) (mounted table) as = some s) (hrest : s.flights = [])
    (params : AccountQueryDto) (hq : s.sent.Spells params) :
    ∃ t ∈ s.since, s.vm.total = (AccountMapper.query params t).length ∧
      s.vm.list = (((AccountMapper.query params t).drop ((s.vm.pageNo-1)*s.vm.pageSize).toNat).take
        s.vm.pageSize.toNat).map Account.record := by
  have hpage : 1 ≤ (1 : Int) ∧ (1 : Int) ≤ 4294967296 := by decide
  have hsize : (10 : Int) ∈ pageSizes := by decide
  have hmounted : Current receive paginate (mounted table) := Current.of_getListData hpage hsize
  have hcurrent := exec_invariant step_current hmounted hok h
  obtain ⟨t,ht,hdata⟩ := hcurrent.rest hrest
  have hb : InBounds ⟨some s.question.pageNo,some s.question.pageSize⟩ := hcurrent.inBounds
  have hanswer : respond receive paginate s.question.url t = _ := respond_url hr hb hq t
  rw [list_page hp hb] at hanswer
  rw [hanswer] at hdata
  obtain ⟨hlist,htotal⟩ := hdata _ rfl
  exact ⟨t,ht,htotal,hlist⟩

def parseQuery : Receiver := fun url =>
  let query := (url.toList.dropWhile (· ≠ '?')).drop 1
  let name (field : List Char) := String.ofList (field.takeWhile (· ≠ '='))
  let value (field : List Char) := String.ofList ((field.dropWhile (· ≠ '=')).drop 1)
  some ((query.splitOn '&').map fun field => (name field,value field))

private theorem parseQuery_receives : parseQuery.Receives := by
  have hspecial {v : String} (hv : Clean v) : ∀ c ∈ v.toList, c ≠ '=' ∧ c ≠ '&' := by
    intro c hc
    constructor <;>
      · rintro rfl
        exact absurd (hv _ hc) (by decide)
  intro fields hne hclean
  let field (f : String × String) : List Char := f.1.toList ++ '=' :: f.2.toList
  have hurl : ("accounts?" ++ "&".intercalate (fields.map fun f => f.1 ++ "=" ++ f.2)).toList =
      "accounts".toList ++ '?' :: ['&'].intercalate (fields.map field) := by
    rw [String.toList_append,String.toList_intercalate,List.map_map]
    have hfield (f : String × String) : (f.1 ++ "=" ++ f.2).toList = field f := by
      rw [String.toList_append,String.toList_append,List.append_assoc]
      rfl
    simp only [Function.comp_def,hfield]
    rfl
  have hfront : ∀ c ∈ "accounts".toList, decide (c ≠ '?') = true := List.all_eq_true.mp (by decide)
  have hand : ∀ l ∈ fields.map field, '&' ∉ l := by
    intro l hl hmem
    obtain ⟨f,hf,rfl⟩ := List.mem_map.mp hl
    obtain ⟨_,hname,hvalue⟩ := hclean f hf
    rcases List.mem_append.mp hmem with hmem | hmem
    · exact (hspecial hname _ hmem).2 rfl
    · rcases List.mem_cons.mp hmem with heq | hmem
      · exact absurd heq (by decide)
      · exact (hspecial hvalue _ hmem).2 rfl
  rw [parseQuery]
  dsimp only
  rw [hurl,List.dropWhile_append_of_pos hfront,List.dropWhile_cons_of_neg (by decide),List.drop_one,
    List.tail_cons,List.splitOn_intercalate '&' hand (mt List.map_eq_nil_iff.mp hne),List.map_map]
  refine congrArg some ((List.map_congr_left fun f hf => ?_).trans (List.map_id fields))
  have hname : ∀ c ∈ f.1.toList, decide (c ≠ '=') = true :=
    fun c hc => decide_eq_true (hspecial (hclean f hf).2.1 c hc).1
  rw [Function.comp_apply,List.takeWhile_append_of_pos hname,List.dropWhile_append_of_pos hname,
    List.takeWhile_cons_of_neg (by decide),List.dropWhile_cons_of_neg (by decide),List.append_nil,
    List.drop_one,List.tail_cons,String.ofList_toList,String.ofList_toList]
  rfl

theorem list_shown_at_rest_of_overtaken :
    let table : AccountTable := ⟨[AccountApi.account 1 none],by decide⟩
    let grown : AccountTable :=
      ⟨[AccountApi.account 4 none,AccountApi.account 3 none,AccountApi.account 2 none,
        AccountApi.account 1 none],by decide⟩
    let q : QueryBean := { name := .text "l" }
    let as : List Label := [.queryBean q,.getListData,.handleSizeChange 3,.serve 1,.change grown,.serve 0,
      .answer 1,.handleUpdate 0,.editUser "lo" none,.fail 1,.answer 0]
    ∃ s, exec (step parseQuery AccountApi.pageOf) (mounted table) as = some s ∧
      s.vm.list = [⟨4,"li",none⟩,⟨3,"li",none⟩,⟨2,"li",none⟩] ∧
      ∃ t ∈ s.since, s.vm.total = (AccountMapper.query { name := some "l" } t).length := by
  intro table grown q as
  have hrun : ∃ s ∈ exec (step parseQuery AccountApi.pageOf) (mounted table) as,
      s.vm.list = [⟨4,"li",none⟩,⟨3,"li",none⟩,⟨2,"li",none⟩] ∧ s.flights.length = 0 ∧ s.sent = q := by
    decide +kernel
  obtain ⟨s,hs,hlist,hflights,hsent⟩ := hrun
  have hok : StepsMeet (step parseQuery AccountApi.pageOf) NewestLast (mounted table) as := by decide +kernel
  have hclean : Clean "l" := by
    intro c hc
    obtain rfl := List.mem_singleton.mp hc
    exact .inl rfl
  have hshown := list_shown_at_rest parseQuery_receives (fun _ _ _ _ _ _ _ => rfl) table as s hok hs
    (List.length_eq_zero_iff.mp hflights) { name := some "l" } (hsent ▸ ⟨rfl,rfl,hclean,rfl⟩)
  obtain ⟨t,ht,htotal,_⟩ := hshown
  exact ⟨s,hs,hlist,t,ht,htotal⟩

/-- An older answer that comes last stays, here to a form that did not ask for names with `x`. -/
example : let table : AccountTable := ⟨[AccountApi.account 1 none],by decide⟩
    let as : List Label := [.queryBean { name := .text "x" },.getListData,.serve 0,.serve 1,.answer 0,.answer 0]
    (exec (step parseQuery AccountApi.pageOf) (mounted table) as).map (·.vm.total) = some 1 := by
  decide +kernel

end Browser
end CloudWeb.Provider
