import CloudWeb.Foundation.Program
import CloudWeb.Sequence.RedisCounter
import CloudWeb.Sequence.SnowFlake

/-! `SnowFlakeAutoSequence`: the same generator, with ids taken from Redis by two
nested loops. The loops are a program that asks Redis one `setIfAbsent` at a time. -/
namespace CloudWeb.Sequence
open Java Foundation SnowFlake

structure SnowFlakeAutoSequence extends SnowFlake where
  nameSpace : String
  redisKey : Option String := none
  deriving DecidableEq, Repr

inductive RegisterException
  /-- `DistributedSequenceException(String)` does not pass its argument on. -/
  | distributedSequence (message : Option String)
  | nullPointer
  | redis (cause : RedisException)
  deriving DecidableEq, Repr

namespace SnowFlakeAutoSequence

def VALID_SECONDS : Nat := 60

/-- `setIfAbsent(key, "", seconds, TimeUnit.SECONDS)`. -/
structure SetIfAbsent where
  key : String
  seconds : Nat
  deriving DecidableEq, Repr

/-- What `setIfAbsent` returns; `none` is Java's `null`. -/
abbrev Reply := Except RedisException (Option Bool)

abbrev Registration :=
  Program SetIfAbsent Reply (Except RegisterException SnowFlakeAutoSequence)

def machineKey (nameSpace : String) (dataCenterKey machineId : Nat) : String :=
  nameSpace ++ ":" ++ toString dataCenterKey ++ ":" ++ toString machineId

def tried (self : SnowFlakeAutoSequence) (machineKey : String) (machineId : Nat) :
    SnowFlakeAutoSequence :=
  { self with redisKey := some machineKey, machineId := Int64.ofNat machineId }

/-- The loop of `registerMachine` from its exit test on, with the locals `machineId`
and `isRegister`; `k` is what the caller does with the returned flag. The test
compares before it increments. Unboxing `null` at the end throws. -/
def registerMachine (self : SnowFlakeAutoSequence) (dataCenterKey machineId : Nat)
    (isRegister : Option Bool) (k : Bool → SnowFlakeAutoSequence → Registration) : Registration :=
  if machineId > 1 <<< 12 then
    match isRegister with
    | none => .done (.error .nullPointer)
    | some isRegister => k isRegister self
  else
    let key := machineKey self.nameSpace dataCenterKey (machineId+1)
    .ask ⟨key,VALID_SECONDS⟩ fun
      | .error cause => .done (.error (.redis cause))
      | .ok isRegister =>
        let self := self.tried key (machineId+1)
        if isRegister = some true then k true self
        else registerMachine self dataCenterKey (machineId+1) isRegister k
termination_by 4097-machineId

/-- The loop of `register`. It counts in the field `datacenterId` but registers
under the local `dataCenterId`, which is 1 and becomes the field in the end. -/
def register (self : SnowFlakeAutoSequence) (datacenterId : Nat) : Registration :=
  if datacenterId+1 > 1 <<< 17 then .done (.error (.distributedSequence none))
  else
    registerMachine { self with datacenterId := Int64.ofNat (datacenterId+1) } 1 0 (some false)
      fun isRegister self =>
        if isRegister then .done (.ok { self with datacenterId := 1 })
        else register self (datacenterId+1)
termination_by 131072-datacenterId

/-- The constructor, up to the scheduling of renewals. -/
def new (name : String) : Registration :=
  register { datacenterId := 0, machineId := 0, nameSpace := "concurrent:snow-flake:" ++ name } 0

/-! ## What the loops can produce -/

section Loops
variable {name : String} {self : SnowFlakeAutoSequence} {isRegister : Option Bool} {i d : Nat}
  {k : Bool → SnowFlakeAutoSequence → Registration}

theorem registerMachine_break (hi : 4096 < i) (hr : isRegister ≠ some true) :
    registerMachine self 1 i isRegister k =
      if isRegister = none then .done (.error .nullPointer) else k false self := by
  rw [registerMachine.eq_def,if_pos (show i > 1 <<< 12 from hi)]
  rcases isRegister with _ | b | b
  · rfl
  · rfl
  · exact absurd rfl hr

theorem registerMachine_try (hi : i ≤ 4096) :
    registerMachine self 1 i isRegister k =
      .ask ⟨machineKey self.nameSpace 1 (i+1),VALID_SECONDS⟩ fun
        | .error cause => .done (.error (.redis cause))
        | .ok isRegister =>
          let self := self.tried (machineKey self.nameSpace 1 (i+1)) (i+1)
          if isRegister = some true then k true self else registerMachine self 1 (i+1) isRegister k := by
  rw [registerMachine.eq_def,if_neg (show ¬ i > 1 <<< 12 from Nat.not_lt.mpr hi)]

theorem register_break (hd : 131072 ≤ d) :
    register self d = .done (.error (.distributedSequence none)) := by
  rw [register,if_pos (show d+1 > 1 <<< 17 from Nat.lt_succ_of_le hd)]

theorem register_try (hd : d < 131072) :
    register self d =
      registerMachine { self with datacenterId := Int64.ofNat (d+1) } 1 0 (some false)
        fun isRegister self =>
          if isRegister then .done (.ok { self with datacenterId := 1 }) else register self (d+1) := by
  rw [register,if_neg (show ¬ d+1 > 1 <<< 17 from Nat.not_lt.mpr hd)]

def registeredAt (name : String) (m : Nat) : SnowFlakeAutoSequence where
  datacenterId := 1
  machineId := Int64.ofNat m
  nameSpace := "concurrent:snow-flake:" ++ name
  redisKey := some (machineKey ("concurrent:snow-flake:" ++ name) 1 m)

/-- A registration in progress asks for one slot after the other. It ends with an
instance exactly when the slot it asked for was free. -/
def Asks (name : String) : Registration → Prop
  | .done (.ok self) => ∃ m, 1 ≤ m ∧ m ≤ 4097 ∧ self = registeredAt name m
  | .done (.error _) => True
  | .ask q resume => ∃ m, 1 ≤ m ∧ m ≤ 4097 ∧
      q = ⟨machineKey ("concurrent:snow-flake:" ++ name) 1 m,VALID_SECONDS⟩ ∧
      resume (.ok (some true)) = .done (.ok (registeredAt name m)) ∧
      ∀ r, r ≠ .ok (some true) → ∀ self, resume r ≠ .done (.ok self)

def Untouched (name : String) (self : SnowFlakeAutoSequence) : Prop :=
  self.nameSpace = "concurrent:snow-flake:" ++ name ∧ self.sequence = 0 ∧ self.lastStmp = -1

private theorem Untouched.eq_registeredAt (h : Untouched name self) (m : Nat) :
    { self.tried (machineKey self.nameSpace 1 m) m with datacenterId := 1 } = registeredAt name m := by
  obtain ⟨hn,hs,hl⟩ := h
  simp only [tried,SnowFlakeAutoSequence.registeredAt,hn,hs,hl]

private theorem registerMachine_not_ok (hr : isRegister ≠ some true)
    (hk : ∀ self out, k false self ≠ .done (.ok out)) (out : SnowFlakeAutoSequence) :
    registerMachine self 1 i isRegister k ≠ .done (.ok out) := by
  by_cases hi : i ≤ 4096
  · rw [registerMachine_try hi]
    exact fun h => nomatch h
  · rw [registerMachine_break (Nat.lt_of_not_le hi) hr]
    split
    · exact fun h => nomatch h
    · exact hk self out

theorem register_not_ok (out : SnowFlakeAutoSequence) : register self d ≠ .done (.ok out) := by
  by_cases hd : d < 131072
  · rw [register_try hd,registerMachine_try (Nat.zero_le _)]
    exact fun h => nomatch h
  · rw [register_break (Nat.le_of_not_lt hd)]
    exact fun h => nomatch h

private theorem registerMachine_asks
    (htrue : ∀ self m, Untouched name self →
      k true (self.tried (machineKey self.nameSpace 1 m) m) = .done (.ok (registeredAt name m)))
    (hfalse : ∀ self, Untouched name self → (k false self).Every (Asks name))
    (hnot : ∀ self out, k false self ≠ .done (.ok out))
    (hs : Untouched name self) (hr : isRegister ≠ some true) (hi : i ≤ 4097) :
    (registerMachine self 1 i isRegister k).Every (Asks name) := by
  -- by the tries left
  obtain ⟨n,hn⟩ := Nat.exists_eq_add_of_le hi
  induction n generalizing i self isRegister with
  | zero =>
    rw [registerMachine_break (by omega) hr]
    split
    · trivial
    · exact hfalse self hs
  | succ n ih =>
    rw [registerMachine_try (by omega)]
    refine ⟨⟨i+1,by omega,by omega,by rw [hs.1],?_,?_⟩,?_⟩
    · exact htrue self (i+1) hs
    · rintro (cause | b) hne out
      · exact fun h => nomatch h
      · have hb : b ≠ some true := fun h => hne (h ▸ rfl)
        simp only [if_neg hb]
        exact registerMachine_not_ok hb hnot out
    · rintro (cause | b)
      · trivial
      · by_cases hb : b = some true
        · simp only [if_pos hb,htrue self (i+1) hs]
          exact ⟨i+1,by omega,by omega,rfl⟩
        · simp only [if_neg hb]
          exact ih hs hb (by omega) (by omega)

private theorem register_asks (hs : Untouched name self) (hd : d ≤ 131072) :
    (register self d).Every (Asks name) := by
  -- by the passes left
  obtain ⟨n,hn⟩ := Nat.exists_eq_add_of_le hd
  induction n generalizing d self with
  | zero =>
    rw [register_break (by omega)]
    trivial
  | succ n ih =>
    rw [register_try (by omega)]
    refine registerMachine_asks ?_ ?_ ?_ hs (by decide) (by decide)
    · intro self m hs
      rw [if_pos rfl,hs.eq_registeredAt]
    · intro self hs
      exact ih hs (by omega) (by omega)
    · intro self out
      exact register_not_ok out

private theorem registerMachine_feed (n : Nat) (hi : i + n ≤ 4096) (rs : List Reply) :
    (registerMachine self 1 i isRegister k).feed
        (List.replicate n (.ok (some false)) ++ .ok (some true) :: rs) =
      (k true (self.tried (machineKey self.nameSpace 1 (i+n+1)) (i+n+1))).feed rs := by
  -- by the busy slots in front of the free one
  induction n generalizing i self isRegister with
  | zero =>
    rw [registerMachine_try (by omega)]
    rfl
  | succ n ih =>
    rw [registerMachine_try (by omega),List.replicate_succ,List.cons_append,Program.feed]
    simp only [Option.some.injEq,Bool.false_eq_true,if_false]
    rw [ih (by omega),show i+1+n+1 = i+(n+1)+1 by omega]
    rfl

end Loops

theorem new_asks (name : String) : (new name).Every (Asks name) :=
  register_asks ⟨rfl,rfl,rfl⟩ (by decide)

theorem new_first (name : String) : ∃ resume,
    new name = .ask ⟨machineKey ("concurrent:snow-flake:" ++ name) 1 1,VALID_SECONDS⟩ resume ∧
      resume (.ok (some true)) = .done (.ok (registeredAt name 1)) := by
  rw [new,register_try (by decide),registerMachine_try (by decide)]
  exact ⟨_,rfl,rfl⟩

/-- The instances the constructor can produce. -/
def Registered (name : String) (self : SnowFlakeAutoSequence) : Prop :=
  ∃ replies, (new name).feed replies = some (.ok self)

/-- The datacenter id is always 1; the machine id is any of 1 to 4097. -/
theorem registered_iff {name : String} {self : SnowFlakeAutoSequence} :
    Registered name self ↔ ∃ m, 1 ≤ m ∧ m ≤ 4097 ∧ self = registeredAt name m := by
  constructor
  · rintro ⟨replies,hf⟩
    exact (new_asks name).feed hf
  · rintro ⟨m,hm,hm',rfl⟩
    refine ⟨List.replicate (m-1) (.ok (some false)) ++ [.ok (some true)],?_⟩
    rw [new,register_try (by decide),registerMachine_feed (m-1) (by omega),if_pos rfl,
      show 0+(m-1)+1 = m by omega]
    rfl

/-! ## The ids -/

/-- `s` is reached by whole calls on a new instance, every reading in the window. -/
def Runs (self : SnowFlakeAutoSequence) (s : Trace) : Prop :=
  ∃ calls, (∀ rs ∈ calls, ∀ r ∈ rs, InWindow r) ∧ exec step ⟨self.toSnowFlake,[]⟩ calls = some s

theorem Runs.later {self : SnowFlakeAutoSequence} {s : Trace} {t : Int64} (h : Runs self s)
    (ht : InWindow t) (hl : s.gen.lastStmp < t) : Runs self (s.later t) := by
  obtain ⟨calls,hw,he⟩ := h
  refine ⟨calls ++ [[t]],?_,?_⟩
  · intro rs hrs r hr
    rcases List.mem_append.mp hrs with hrs | hrs
    · exact hw rs hrs r hr
    · rw [List.mem_singleton.mp hrs] at hr
      rwa [List.mem_singleton.mp hr]
  · rw [exec_append,he,Option.bind_some,exec_cons,step_later hl]
    rfl

/-- Instances alive at the same time: each registered, no two in one slot. -/
structure Registrations {ι : Type*} (name : String) (inst : ι → SnowFlakeAutoSequence) : Prop where
  registered : ∀ i, Registered name (inst i)
  distinct : ∀ i j, i ≠ j →
    ((inst i).datacenterId,(inst i).machineId) ≠ ((inst j).datacenterId,(inst j).machineId)

/-- No id twice, neither from one instance nor from two. -/
def UniqueIds {ι : Type*} (inst : ι → SnowFlakeAutoSequence) : Prop :=
  ∀ s : ι → Trace, (∀ i, Runs (inst i) (s i)) →
    (∀ i, ((s i).issued.map Issue.id).Nodup) ∧
    ∀ i j, i ≠ j → ∀ e ∈ (s i).issued, ∀ e' ∈ (s j).issued, e.id ≠ e'.id

section Word
variable {name : String} {m m' : Nat} {t t' q q' : Int64}

theorem bits_ofNat (h : m < 2^63) : bits (Int64.ofNat m) = m :=
  Nat.mod_eq_of_lt (show m < 2^64 by omega)

theorem bits_machineId (hm : m ≤ 4097) : bits (registeredAt name m).machineId = m :=
  bits_ofNat (by omega)

private theorem bits_registered (hm : m ≤ 4097) (ht : InWindow t) (hq : bits q < 2^12) :
    bits ((registeredAt name m).compose t q) = layout (elapsed t) 1 m (bits q) := by
  have hb : bits (registeredAt name m).machineId = m := bits_machineId hm
  have hd : bits (registeredAt name m).datacenterId = 1 := rfl
  rw [(bits_compose ht (by rw [hd]; decide) (by rw [hb]; omega) hq).1,hb,hd]

/-- Below 1024 the machine id stays clear of the timestamp; bit 5 of it falls onto the
datacenter bit. -/
theorem layout_registered {t m q : Nat} (hm : m < 1024) (hq : q < 2^12) :
    layout t 1 m q = t * 2^22 + (32 ||| m) * 2^12 + q ∧ 32 ||| m < 1024 := by
  have hlt : 32 ||| m < 2^10 := Nat.or_lt_two_pow (by decide) hm
  have h1 : (1 : Nat) <<< 17 ||| m <<< 12 = (32 ||| m) <<< 12 := by
    rw [Nat.shiftLeft_or_distrib,show (32 : Nat) <<< 12 = 1 <<< 17 from rfl]
  have h2 : t <<< 22 ||| (32 ||| m) <<< 12 = (t * 2^10 + (32 ||| m)) <<< 12 := by
    rw [← Nat.shiftLeft_add_eq_or_of_lt (by rw [Nat.shiftLeft_eq]; omega)]
    simp only [Nat.shiftLeft_eq]
    omega
  refine ⟨?_,hlt⟩
  rw [layout,Nat.or_assoc (t <<< 22),h1,h2,← Nat.shiftLeft_add_eq_or_of_lt hq,Nat.shiftLeft_eq]
  omega

private theorem layout_covered (m q : Nat) : layout (m >>> 10) 1 m q = layout 0 1 m q := by
  have hc : (m >>> 10) <<< 22 ||| m <<< 12 = m <<< 12 := by
    refine Nat.eq_of_testBit_eq fun i => ?_
    simp only [Nat.testBit_or,Nat.testBit_shiftLeft,Nat.testBit_shiftRight]
    by_cases hi : 22 ≤ i
    · rw [show 10+(i-22) = i-12 by omega]
      simp [hi,show 12 ≤ i by omega]
    · simp [hi]
  unfold layout
  rw [Nat.zero_shiftLeft,Nat.zero_or,Nat.or_assoc _ (1 <<< 17),Nat.or_comm (1 <<< 17),
    ← Nat.or_assoc,hc]

theorem compose_registered_inj (hm : m < 1024) (hm' : m' < 1024) (ht : InWindow t)
    (ht' : InWindow t') (hq : bits q < 2^12) (hq' : bits q' < 2^12)
    (h : (registeredAt name m).compose t q = (registeredAt name m').compose t' q') :
    t = t' ∧ q = q' ∧ 32 ||| m = 32 ||| m' := by
  have hb := congrArg bits h
  rw [bits_registered (by omega) ht hq,bits_registered (by omega) ht' hq'] at hb
  obtain ⟨hl,hlt⟩ := layout_registered (t := elapsed t) hm hq
  obtain ⟨hl',hlt'⟩ := layout_registered (t := elapsed t') hm' hq'
  rw [hl,hl'] at hb
  have he := ht.elapsed_lt.2
  have he' := ht'.elapsed_lt.2
  exact ⟨Int64.toInt_inj.mp (by omega),bits_inj.mp (by omega),by omega⟩

end Word

section Collisions
variable {ι : Type*} {name : String} {slot : ι → Nat}

def instant (n : Nat) : Int64 := Int64.ofNat (1571103458728 + n)

private theorem instant_inWindow {n : Nat} (h : n < 2^41) :
    InWindow (instant n) ∧ elapsed (instant n) = n := by
  have hb : bits (instant n) = 1571103458728 + n := bits_ofNat (by omega)
  have hi : (instant n).toInt = 1571103458728 + n := by
    rw [toInt_eq_bits (by omega),hb]
    rfl
  have hs : START_STMP.toInt = 1571103458728 := rfl
  unfold InWindow elapsed
  omega

def firstCall (name : String) (m n : Nat) : Trace :=
  Trace.later ⟨(registeredAt name m).toSnowFlake,[]⟩ (instant n)

private theorem runs_firstCall {m n : Nat} (h : n < 2^41) :
    Runs (registeredAt name m) (firstCall name m n) := by
  obtain ⟨hw,_⟩ := instant_inWindow h
  exact Runs.later ⟨[],fun _ h => absurd h List.not_mem_nil,rfl⟩ hw hw.fresh_lt

private theorem not_uniqueIds_of_same_word (hslot : ∀ i, slot i < 1024) {i j : ι} (hij : i ≠ j)
    (h : 32 ||| slot i = 32 ||| slot j) : ¬ UniqueIds fun i => registeredAt name (slot i) := by
  intro hu
  obtain ⟨hw,_⟩ := instant_inWindow (n := 0) (by decide)
  have hq : bits 0 < 2^12 := by decide
  have hi := hslot i
  have hj := hslot j
  refine (hu (fun i => firstCall name (slot i) 0) fun i => runs_firstCall (by decide)).2 i j hij
    _ List.mem_cons_self _ List.mem_cons_self (bits_inj.mp ?_)
  rw [bits_registered (by omega) hw hq,bits_registered (by omega) hw hq,
    (layout_registered hi hq).1,(layout_registered hj hq).1,h]

private theorem not_uniqueIds_of_covered {i : ι} (hi : 1024 ≤ slot i) (hi' : slot i ≤ 4097) :
    ¬ UniqueIds fun i => registeredAt name (slot i) := by
  intro hu
  have hc : 1 ≤ slot i >>> 10 ∧ slot i >>> 10 ≤ 4 := by
    rw [Nat.shiftRight_eq_div_pow]
    omega
  obtain ⟨hw,he⟩ := instant_inWindow (n := 0) (by decide)
  obtain ⟨hw',he'⟩ := instant_inWindow (n := slot i >>> 10) (by omega)
  have hlt : instant 0 < instant (slot i >>> 10) := by
    have h0 := hw.elapsed_lt.2
    have h1 := hw'.elapsed_lt.2
    rw [Int64.lt_iff_toInt_lt]
    omega
  have hq : bits 0 < 2^12 := by decide
  have hn := (hu (fun j => (firstCall name (slot j) 0).later (instant (slot i >>> 10)))
    fun j => (runs_firstCall (by decide)).later hw' hlt).1 i
  have hne := fun h => (List.nodup_cons.mp hn).1 (List.mem_singleton.mpr h)
  refine hne (bits_inj.mp ?_)
  change bits ((registeredAt name (slot i)).compose _ 0) = bits ((registeredAt name (slot i)).compose _ 0)
  rw [bits_registered hi' hw' hq,bits_registered hi' hw hq,he,he',layout_covered]

private theorem uniqueIds_of_clear (hslot : ∀ i, slot i < 1024)
    (hdiff : ∀ i j, i ≠ j → 32 ||| slot i ≠ 32 ||| slot j) :
    UniqueIds fun i => registeredAt name (slot i) := by
  intro s hruns
  have hord (i : ι) : Ordered InWindow (registeredAt name (slot i)).toSnowFlake (s i) := by
    obtain ⟨calls,hw,he⟩ := hruns i
    exact run_ordered (show bits 0 < 2^12 by decide) hw he
  have hinj {i j : ι} {e e' : Issue} (he : e ∈ (s i).issued) (he' : e' ∈ (s j).issued)
      (h : e.id = e'.id) :
      e.stmp = e'.stmp ∧ e.sequence = e'.sequence ∧ 32 ||| slot i = 32 ||| slot j := by
    obtain ⟨hi,hq,hw⟩ := (hord i).made e he
    obtain ⟨hi',hq',hw'⟩ := (hord j).made e' he'
    exact compose_registered_inj (hslot i) (hslot j) hw hw' hq hq' (hi.symm.trans (h.trans hi'))
  constructor
  · intro i
    refine List.pairwise_map.mpr ((hord i).ordered.imp_of_mem fun {a b} ha hb hab h => ?_)
    obtain ⟨ht,hq,_⟩ := hinj ha hb h
    rcases hab with hlt | ⟨_,hlt⟩
    · exact Int64.lt_irrefl (ht ▸ hlt)
    · rw [hq] at hlt
      exact Nat.lt_irrefl _ hlt
  · intro i j hij e he e' he' h
    exact hdiff i j hij (hinj he he' h).2.2

end Collisions

/-- Ids of registered instances are unique exactly when every machine id is below 1024
and any two machine ids differ in some bit other than bit 5. -/
theorem ids_unique_iff {ι : Type*} (name : String) (inst : ι → SnowFlakeAutoSequence)
    (h : Registrations name inst) :
    UniqueIds inst ↔ (∀ i, bits (inst i).machineId < 1024) ∧
      ∀ i j, i ≠ j → 32 ||| bits (inst i).machineId ≠ 32 ||| bits (inst j).machineId := by
  choose slot hpos hle hslot using fun i => registered_iff.mp (h.registered i)
  obtain rfl : inst = fun i => registeredAt name (slot i) := funext hslot
  simp only [bits_machineId (hle _)]
  constructor
  · intro hu
    have hlt (i : ι) : slot i < 1024 := by
      by_contra hge
      exact not_uniqueIds_of_covered (Nat.le_of_not_lt hge) (hle i) hu
    exact ⟨hlt,fun i j hij he => not_uniqueIds_of_same_word hlt hij he hu⟩
  · rintro ⟨hlt,hdiff⟩
    exact uniqueIds_of_clear hlt hdiff

private theorem registrations_pair {name : String} {a b : Nat} (ha : 1 ≤ a ∧ a ≤ 4097)
    (hb : 1 ≤ b ∧ b ≤ 4097) (hne : Int64.ofNat a ≠ Int64.ofNat b) :
    Registrations name fun second : Bool => registeredAt name (if second then b else a) := by
  refine ⟨fun i => registered_iff.mpr ?_,fun i j hij h => ?_⟩
  · cases i
    · exact ⟨a,ha.1,ha.2,rfl⟩
    · exact ⟨b,hb.1,hb.2,rfl⟩
  · cases i <;> cases j
    · exact hij rfl
    · exact hne (congrArg Prod.snd h)
    · exact hne (congrArg Prod.snd h).symm
    · exact hij rfl

theorem ids_unique_in_first_slots :
    UniqueIds fun second : Bool => registeredAt "order" (if second then 2 else 1) :=
  (ids_unique_iff "order" _ (registrations_pair (by decide) (by decide) (by decide))).mpr
    ⟨by decide,by decide⟩

theorem slots_1_and_33_collide :
    ¬ ∀ (name : String) (inst : Bool → SnowFlakeAutoSequence),
      Registrations name inst → UniqueIds inst := by
  intro h
  have hu := h "order" _ (registrations_pair (a := 1) (b := 33) (by decide) (by decide) (by decide))
  have hslot : ∀ second : Bool, (if second then 33 else 1) < 1024 := by decide
  exact not_uniqueIds_of_same_word hslot (i := false) (j := true) (by decide) (by decide) hu

end SnowFlakeAutoSequence
end CloudWeb.Sequence
