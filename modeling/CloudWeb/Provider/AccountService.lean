import CloudWeb.Foundation.Execution
import CloudWeb.Foundation.Paging
import CloudWeb.Java.Long
import CloudWeb.Provider.AccountMapper

/-! The account list as the API provider serves it: page by page, while accounts are added,
updated and deleted. -/
namespace CloudWeb.Provider
open Foundation Java

/-- A field is `null` where a request sends it empty. -/
structure BasePage where
  pageNo : Option Int := some 1
  pageSize : Option Int := some 10
  deriving DecidableEq, Repr

structure IPage (α : Type*) where
  current : Int
  size : Int
  total : Int
  records : List α

/-- `total` and `records` are set wherever one is built. -/
structure PageDto (α : Type*) extends BasePage where
  total : Int
  records : List α

def PageDto.build {α : Type*} (page : IPage α) : PageDto α where
  pageNo := some page.current
  pageSize := some page.size
  total := page.total
  records := page.records

structure Throwable where
  message : Option String

def NullPointerException : Throwable := ⟨none⟩

def BadSqlGrammarException : Throwable := ⟨some "bad SQL grammar"⟩

structure Response (α : Type*) where
  code : Int
  msg : String
  data : Option α

namespace Response
variable {α : Type*}

def CODE_SUCCESS : Int := 1
def CODE_SYSTEM_ERROR : Int := 0

def build (code : Int) (msg : String) (obj : Option α) : Response α := ⟨code,msg,obj⟩

def ok (obj : α) : Response α := build CODE_SUCCESS "成功" (some obj)

def error (t : Throwable) : Response α :=
  let msg := t.message.getD "系统异常"
  build CODE_SYSTEM_ERROR msg none

end Response

def GlobalExceptionHandler.defaultErrorHandler {α : Type*} (e : Throwable) : Response α := Response.error e

/-- What `new Page<>(pageNo, pageSize)` and the `PaginationInterceptor` make of the rows a
statement selects. -/
abbrev Pagination := Int → Int → List Account → IPage Account

/-- The plugin for pages of at most 500 rows, up to the offsets of a `long`. -/
def Pagination.Pages (paginate : Pagination) : Prop :=
  ∀ current size rows, 1 ≤ current → 1 ≤ size → size ≤ 500 → current*size ≤ Long.MAX_VALUE →
    paginate current size rows =
      ⟨current,size,rows.length,(rows.drop ((current-1)*size).toNat).take size.toNat⟩

/-- The parameters of a request are `params` and its `BasePage`. Unboxing a `null` throws. -/
def AccountServiceImpl.list (paginate : Pagination) (base : BasePage) (params : AccountQueryDto)
    (table : AccountTable) : Except Throwable (PageDto Account) :=
  match base.pageNo, base.pageSize with
  | some pageNo, some pageSize =>
    match AccountMapper.list params table with
    | some rows => .ok (PageDto.build (paginate pageNo pageSize rows))
    | none => .error BadSqlGrammarException
  | _, _ => .error NullPointerException

namespace AccountApi

def list (paginate : Pagination) (base : BasePage) (params : AccountQueryDto) (table : AccountTable) :
    Response (PageDto Account) :=
  match AccountServiceImpl.list paginate base params table with
  | .ok page => Response.ok page
  | .error e => GlobalExceptionHandler.defaultErrorHandler e

end AccountApi

/-! ## The rows of the query -/

namespace AccountMapper

instance (params : AccountQueryDto) (r : Account) : Decidable (Passes params r) :=
  have _ : Decidable (∀ i ∈ params.id, i ≠ 0 → r.id.toInt64 = i) := Option.decidableForallMem _
  have _ : Decidable (∀ g ∈ params.gender, g ≠ 0 → r.gender = some g) := Option.decidableForallMem _
  decidable_of_iff ((∀ i ∈ params.id, i ≠ 0 → r.id.toInt64 = i) ∧
      (∀ n ∈ params.name, n ≠ "" → Like.Matches (Like.startingWith n.toList) r.name.toList) ∧
      ∀ g ∈ params.gender, g ≠ 0 → r.gender = some g)
    ⟨fun ⟨hi,hn,hg⟩ => ⟨hi,hn,hg⟩,fun h => ⟨h.id,h.name,h.gender⟩⟩

def query (params : AccountQueryDto) (table : AccountTable) : List Account :=
  (list params table).getD []

section Query
variable {params : AccountQueryDto} {table : AccountTable}

private theorem query_eq (params : AccountQueryDto) (table : AccountTable) :
    list params table = some (query params table) := by
  obtain ⟨rows,hrows,_⟩ := list_spec params table
  rw [query,hrows]
  rfl

theorem mem_query {r : Account} : r ∈ query params table ↔ r ∈ table.rows ∧ Passes params r := by
  obtain ⟨rows,hrows,_,hmem⟩ := list_spec params table
  rw [query,hrows]
  exact hmem r

private theorem query_nodup (params : AccountQueryDto) (table : AccountTable) :
    ((query params table).map Account.id).Nodup := by
  have hrows := query_eq params table
  rw [list,Option.map_eq_some_iff] at hrows
  obtain ⟨selected,hselected,hsorted⟩ := hrows
  obtain ⟨conditions,_,rfl⟩ := Option.map_eq_some_iff.mp hselected
  rw [← hsorted,((List.perm_insertionSort ..).map Account.id).nodup_iff]
  exact table.primary_key.sublist (List.filter_sublist.map Account.id)

theorem query_descending (params : AccountQueryDto) (table : AccountTable) :
    Descending (fun r : Account => r.id.toInt) (query params table) := by
  obtain ⟨rows,hrows,hsorted,_⟩ := list_spec params table
  have hnodup := List.pairwise_map.mp (query_nodup params table)
  obtain rfl : query params table = rows := Option.some.inj ((query_eq params table).symm.trans hrows)
  refine (hsorted.and hnodup).imp fun ⟨hle,hne⟩ => ?_
  exact lt_of_le_of_ne (Int32.le_iff_toInt_le.mp hle) fun heq => hne (Int32.toInt_inj.mp heq).symm

end Query
end AccountMapper

namespace AccountApi
open AccountMapper

theorem list_eq (paginate : Pagination) (base : BasePage) (params : AccountQueryDto)
    (table : AccountTable) :
    list paginate base params table =
      match base.pageNo, base.pageSize with
      | some pageNo, some pageSize =>
        Response.ok (PageDto.build (paginate pageNo pageSize (query params table)))
      | _, _ => Response.build Response.CODE_SYSTEM_ERROR "系统异常" none := by
  rcases base with ⟨_ | pageNo,_ | pageSize⟩
  · rfl
  · rfl
  · rfl
  · simp only [list,AccountServiceImpl.list,query_eq]

end AccountApi

/-! ## Reading the list while it changes -/

/-- The body of a request that writes a row; a field may be `null`. -/
structure AccountBody where
  name : Option String := none
  gender : Option Int32 := none
  name_length : ∀ n ∈ name, n.length ≤ 128

/-- What is inserted: `null` is left to the column, and the name has no default. -/
def AccountBody.row (body : AccountBody) (id : Int32) : Option Account :=
  match h : body.name with
  | some name => some ⟨id,name,some (body.gender.getD 0),body.name_length name h⟩
  | none => none

/-- What is updated: `null` leaves the column as it is. -/
def Account.updated (r : Account) (body : AccountBody) : Account where
  id := r.id
  name := body.name.getD r.name
  gender := body.gender.or r.gender
  name_length := by
    cases h : body.name with
    | some name => exact body.name_length name h
    | none => exact r.name_length

namespace AccountTable

def add (table : AccountTable) (r : Account) (h : ∀ q ∈ table.rows, q.id < r.id) : AccountTable where
  rows := r :: table.rows
  primary_key := by
    refine List.nodup_cons.mpr ⟨fun hmem => ?_,table.primary_key⟩
    obtain ⟨q,hq,heq⟩ := List.mem_map.mp hmem
    exact Int32.lt_irrefl (heq ▸ h q hq)

def update (table : AccountTable) (id : Int32) (body : AccountBody) : AccountTable where
  rows := table.rows.map fun q => if q.id = id then q.updated body else q
  primary_key := by
    have hids : Account.id ∘ (fun q => if q.id = id then q.updated body else q) = Account.id := by
      funext q
      rw [Function.comp_apply]
      split <;> rfl
    rw [List.map_map,hids]
    exact table.primary_key

def delete (table : AccountTable) (id : Int32) : AccountTable where
  rows := table.rows.filter fun q => q.id ≠ id
  primary_key := table.primary_key.sublist (List.filter_sublist.map Account.id)

end AccountTable

namespace AccountApi
open AccountMapper

/-- A client that reads the list from page 1 on: how many pages it has read, their records,
and the `total` of the last one. -/
structure Reader where
  table : AccountTable
  page : Nat := 0
  seen : List Account := []
  total : Option Int := none

inductive Label
  | list
  | add (id : Int32) (body : AccountBody)
  | update (id : Int32) (body : AccountBody)
  | delete (id : Int32)

def step (paginate : Pagination) (params : AccountQueryDto) (size : Nat) (s : Reader) :
    Label → Option Reader
  | .list =>
    if ((s.page+1)*size : Int) ≤ Long.MAX_VALUE then
      (list paginate ⟨some (s.page+1),some size⟩ params s.table).data.map fun dto =>
        { s with page := s.page+1, seen := s.seen ++ dto.records, total := some dto.total }
    else none
  | .add id body => (body.row id).bind fun r =>
    if h : ∀ q ∈ s.table.rows, q.id < r.id then some { s with table := s.table.add r h } else none
  | .update id body => some { s with table := s.table.update id body }
  | .delete id => some { s with table := s.table.delete id }

/-- The rows in front of the next page. -/
def Reader.passed (params : AccountQueryDto) (size : Nat) (s : Reader) : List Account :=
  (query params s.table).take (s.page*size)

/-- No row in front of the next page leaves the list. -/
def Harmless (params : AccountQueryDto) (size : Nat) (s : Reader) : Label → Prop
  | .list => True
  | .add _ _ => True
  | .update id body => ∀ q ∈ s.passed params size, q.id = id → Passes params (q.updated body)
  | .delete id => ∀ q ∈ s.passed params size, q.id ≠ id

instance (params : AccountQueryDto) (size : Nat) (s : Reader) (a : Label) :
    Decidable (Harmless params size s a) :=
  match a with
  | .list => isTrue trivial
  | .add _ _ => isTrue trivial
  | .update _ _ => inferInstanceAs (Decidable (∀ _ ∈ _, _))
  | .delete _ => inferInstanceAs (Decidable (∀ _ ∈ _, _))

def Label.Touches (id : Int32) : Label → Prop
  | .list => False
  | .add _ _ => False
  | .update i _ => i = id
  | .delete i => i = id

/-- `r` is in the list, and read or on a page that is announced. -/
structure Awaited (params : AccountQueryDto) (size : Nat) (r : Account) (s : Reader) : Prop where
  listed : r ∈ query params s.table
  ahead : r ∈ s.seen ∨
    r ∈ (query params s.table).drop (s.page*size) ∧ ∀ n ∈ s.total, (s.page*size : Int) < n

section Reading
variable {paginate : Pagination} {params : AccountQueryDto} {size : Nat} {s t : Reader} {r : Account}

private theorem step_list (hp : paginate.Pages) (h1 : 1 ≤ size) (h500 : size ≤ 500)
    (hs : step paginate params size s .list = some t) :
    t = { s with
      page := s.page+1
      seen := s.seen ++ ((query params s.table).drop (s.page*size)).take size
      total := some (query params s.table).length } := by
  simp only [step] at hs
  split at hs
  · next hroom =>
    have hoffset : (((s.page : Int)+1-1)*size).toNat = s.page*size := by
      rw [Int.add_sub_cancel,← Int.natCast_mul,Int.toNat_natCast]
    rw [list_eq] at hs
    dsimp only at hs
    rw [hp _ _ _ (by omega) (by omega) (by omega) hroom,hoffset,Int.toNat_natCast] at hs
    exact (Option.some.inj hs).symm
  · cases hs

theorem Awaited.change (h : Awaited params size r s) {table : AccountTable}
    (hkeep : ∀ x ∈ s.passed params size, ∃ y ∈ query params table, y.id = x.id)
    (hr : r ∈ query params table) : Awaited params size r { s with table := table } := by
  refine ⟨hr,h.ahead.imp_right fun ⟨hahead,htotal⟩ => ⟨?_,htotal⟩⟩
  refine (query_descending params s.table).mem_drop (query_descending params table) ?_ hahead hr
  intro x hx
  obtain ⟨y,hy,hid⟩ := hkeep x hx
  exact ⟨y,hy,congrArg Int32.toInt hid⟩

private theorem listed_of_passed (hr : r ∈ s.passed params size) : r ∈ query params s.table :=
  List.mem_of_mem_take hr

private theorem step_awaited (hp : paginate.Pages) (h1 : 1 ≤ size) (h500 : size ≤ 500) (s : Reader)
    (a : Label)
    (t : Reader) (h : Awaited params size r s) (ha : Harmless params size s a ∧ ¬ a.Touches r.id)
    (hs : step paginate params size s a = some t) : Awaited params size r t := by
  obtain ⟨hrow,hpass⟩ := mem_query.mp h.listed
  cases a with
  | list =>
    obtain rfl := step_list hp h1 h500 hs
    refine ⟨h.listed,?_⟩
    rcases h.ahead with hseen | ⟨hahead,_⟩
    · exact .inl (List.mem_append_left _ hseen)
    · rcases mem_page_or_drop size hahead with hpage | hdrop
      · exact .inl (List.mem_append_right _ hpage)
      · rw [← Nat.succ_mul] at hdrop
        refine .inr ⟨hdrop,?_⟩
        rintro n ⟨⟩
        have hlen : (s.page+1)*size < (query params s.table).length := by
          by_contra hle
          rw [List.drop_eq_nil_of_le (not_lt.mp hle)] at hdrop
          exact List.not_mem_nil hdrop
        exact_mod_cast hlen
  | add id body =>
    obtain ⟨q,_,hq⟩ := Option.bind_eq_some_iff.mp hs
    split at hq <;> cases hq
    refine h.change (fun x hx => ?_) (mem_query.mpr ⟨List.mem_cons_of_mem q hrow,hpass⟩)
    obtain ⟨hx,hpx⟩ := mem_query.mp (listed_of_passed hx)
    exact ⟨x,mem_query.mpr ⟨List.mem_cons_of_mem q hx,hpx⟩,rfl⟩
  | update id body =>
    cases hs
    have hkept {x : Account} (hx : x ∈ s.table.rows) (hne : x.id ≠ id) :
        x ∈ (s.table.update id body).rows := List.mem_map.mpr ⟨x,hx,if_neg hne⟩
    refine h.change (fun x hx => ?_) (mem_query.mpr ⟨hkept hrow fun he => ha.2 he.symm,hpass⟩)
    obtain ⟨hrowx,hpx⟩ := mem_query.mp (listed_of_passed hx)
    by_cases hid : x.id = id
    · exact ⟨x.updated body,mem_query.mpr ⟨List.mem_map.mpr ⟨x,hrowx,if_pos hid⟩,ha.1 x hx hid⟩,rfl⟩
    · exact ⟨x,mem_query.mpr ⟨hkept hrowx hid,hpx⟩,rfl⟩
  | delete id =>
    cases hs
    have hkept {x : Account} (hx : x ∈ s.table.rows) (hne : x.id ≠ id) :
        x ∈ (s.table.delete id).rows := List.mem_filter.mpr ⟨hx,decide_eq_true hne⟩
    refine h.change (fun x hx => ?_) (mem_query.mpr ⟨hkept hrow fun he => ha.2 he.symm,hpass⟩)
    obtain ⟨hrowx,hpx⟩ := mem_query.mp (listed_of_passed hx)
    exact ⟨x,mem_query.mpr ⟨hkept hrowx (ha.1 x hx),hpx⟩,rfl⟩

private theorem step_passes (hp : paginate.Pages) (h1 : 1 ≤ size) (h500 : size ≤ 500) (s : Reader)
    (a : Label)
    (t : Reader) (h : ∀ r ∈ s.seen, Passes params r) (hs : step paginate params size s a = some t) :
    ∀ r ∈ t.seen, Passes params r := by
  cases a with
  | list =>
    obtain rfl := step_list hp h1 h500 hs
    intro r hr
    rcases List.mem_append.mp hr with hr | hr
    · exact h r hr
    · exact (mem_query.mp (List.mem_of_mem_drop (List.mem_of_mem_take hr))).2
  | add id body =>
    obtain ⟨q,_,hq⟩ := Option.bind_eq_some_iff.mp hs
    split at hq <;> cases hq
    exact h
  | update id body =>
    cases hs
    exact h
  | delete id =>
    cases hs
    exact h

/-- Undisturbed, the pages are the list cut in pieces. -/
theorem step_undisturbed (hp : paginate.Pages) (h1 : 1 ≤ size) (h500 : size ≤ 500) {table : AccountTable}
    (s : Reader) (a : Label) (t : Reader)
    (h : s.table = table ∧ s.seen = (query params table).take (s.page*size)) (ha : a = .list)
    (hs : step paginate params size s a = some t) :
    t.table = table ∧ t.seen = (query params table).take (t.page*size) := by
  obtain ⟨rfl,hseen⟩ := h
  subst ha
  obtain rfl := step_list hp h1 h500 hs
  refine ⟨rfl,?_⟩
  dsimp only
  rw [hseen,Nat.succ_mul,List.take_add]

end Reading

/-- While accounts are added, updated and deleted, but no row in front of the next page
leaves the list: a client that has read as many pages as `total` announced has every row
that was there from the start and was left alone, and only rows the query asks for. -/
theorem pages_miss_nothing {paginate : Pagination} (hp : paginate.Pages) (params : AccountQueryDto)
    (size : Nat) (h1 : 1 ≤ size) (h500 : size ≤ 500) (table : AccountTable) (as : List Label) (s : Reader)
    (hok : StepsMeet (step paginate params size) (Harmless params size) { table := table } as)
    (h : exec (step paginate params size) { table := table } as = some s) :
    (∀ r ∈ s.seen, Passes params r) ∧
    ((∃ n ∈ s.total, n ≤ (s.page*size : Int)) → ∀ r ∈ table.rows, Passes params r →
      (∀ a ∈ as, ¬ a.Touches r.id) → r ∈ s.seen) ∧
    ((∀ a ∈ as, a = .list) → s.seen = (query params table).take (s.page*size)) := by
  refine ⟨?_,fun ⟨n,hn,hle⟩ r hr hpass htouch => ?_,fun hlist => ?_⟩
  · have hnone : ∀ r ∈ (⟨table,0,[],none⟩ : Reader).seen, Passes params r :=
      fun _ hr => absurd hr List.not_mem_nil
    exact exec_invariant (fun s a t hs _ => step_passes hp h1 h500 s a t hs) hnone (stepsMeet_true _ as) h
  · have hstart : Awaited params size r { table := table } := by
      refine ⟨mem_query.mpr ⟨hr,hpass⟩,.inr ⟨?_,nofun⟩⟩
      rw [Nat.zero_mul]
      exact mem_query.mpr ⟨hr,hpass⟩
    have hawaited := exec_invariant (step_awaited hp h1 h500) hstart
      (hok.and (stepsMeet_of_forall htouch _)) h
    refine hawaited.ahead.resolve_right fun ⟨_,htotal⟩ => ?_
    exact absurd (htotal n hn) (not_lt.mpr hle)
  · refine (exec_invariant (step_undisturbed hp h1 h500) ⟨rfl,?_⟩ (stepsMeet_of_forall hlist _) h).2
    rw [Nat.zero_mul]
    rfl

def pageOf : Pagination := fun current size rows =>
  ⟨current,size,rows.length,(rows.drop ((current-1)*size).toNat).take size.toNat⟩

def account (id : Int32) (gender : Option Int32) : Account := ⟨id,"li",gender,by decide⟩

theorem pages_miss_nothing_of_four :
    let params : AccountQueryDto := { name := some "l" }
    let table : AccountTable := ⟨[account 1 none,account 2 none,account 3 none,account 4 none],by decide⟩
    let as : List Label := [.list,.add 5 ⟨some "lu",none,by decide⟩,.update 4 ⟨none,some 1,by decide⟩,
      .delete 1,.list]
    ∃ s, exec (step pageOf params 2) { table := table } as = some s ∧
      s.seen = [account 4 none,account 3 none,account 3 none,account 2 none] ∧ s.total = some 4 ∧
      ∀ r ∈ table.rows, Passes params r → (∀ a ∈ as, ¬ a.Touches r.id) → r ∈ s.seen := by
  intro params table as
  have hrun : ∃ s ∈ exec (step pageOf params 2) { table := table } as,
      s.seen = [account 4 none,account 3 none,account 3 none,account 2 none] ∧ s.total = some 4 ∧
      s.page = 2 := by decide +kernel
  obtain ⟨s,hs,hseen,htotal,hpage⟩ := hrun
  have hok : StepsMeet (step pageOf params 2) (Harmless params 2) { table := table } as := by
    decide +kernel
  have hmiss := pages_miss_nothing (fun _ _ _ _ _ _ _ => rfl) params 2 (by decide) (by decide) table as s
    hok hs
  exact ⟨s,hs,hseen,htotal,hmiss.2.1 ⟨4,htotal,by rw [hpage]; decide⟩⟩

end AccountApi
end CloudWeb.Provider
