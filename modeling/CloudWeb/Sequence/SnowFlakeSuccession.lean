import CloudWeb.Sequence.SnowFlakeRegistration
import CloudWeb.Sequence.SnowFlakeSchedule
import CloudWeb.Sequence.SnowFlakeSequence

/-! The ids of all `SnowFlakeAutoSequence` instances of one name, while instances come and
go and slots pass from one holder to the next. With renewals on time a slot's key outlives
its holder, so clocks that agree to the second put every id of a slot above the older ones. -/
namespace CloudWeb.Sequence.SnowFlakeLease
open Java Foundation SnowFlake SnowFlakeAutoSequence

structure Returned (ι : Type*) where
  issuer : ι
  slot : Nat
  issue : Issue

structure Fleet (ι : Type*) where
  schedule : Schedule ι := {}
  returned : List (Returned ι) := []

variable {ι : Type*} [DecidableEq ι]

/-- What a call of `next()` returns. -/
def returnedBy (s : Cluster ι) : Label ι → List (Returned ι)
  | .next i readings =>
    match s.phase i with
    | .live self =>
      match self.next readings with
      | some ((.ok id,g),_) => [⟨i,bits self.machineId,⟨id,g.lastStmp,g.sequence⟩⟩]
      | _ => []
    | _ => []
  | _ => []

def advance (name : String) (f : Fleet ι) (a : Label ι) : Option (Fleet ι) :=
  (tick name f.schedule a).map fun s => ⟨s,returnedBy f.schedule.cluster a ++ f.returned⟩

/-- The readings in second `now`; second 0 begins at `zero` milliseconds. -/
def InSecond (zero : Int) (now : Nat) (r : Int64) : Prop :=
  zero+1000*now ≤ r.toInt ∧ r.toInt < zero+1000*(now+1)

/-- Tasks run on time, clocks show the current second, and the machine id of an instance
that is asked fits its five bits. -/
def Punctual (zero : Int) (f : Fleet ι) (a : Label ι) : Prop :=
  OnTime f.schedule a ∧ ∀ i readings, a = .next i readings →
    (∀ r ∈ readings, InWindow r ∧ InSecond zero f.schedule.cluster.redis.now r) ∧
    ∀ self, f.schedule.cluster.phase i = .live self → bits self.machineId < 32

def slotKey (name : String) (m : Nat) : String := machineKey (nameSpaceOf name) 1 m

/-- The time of an id is over when the key of its slot has gone. -/
def Spent (name : String) (zero : Int) (redis : ExpiringStore String) (e : Returned ι) : Prop :=
  e.issue.stmp.toInt < zero+1000*(redis.now+1) ∧
    ∃ x, redis.expiry (slotKey name e.slot) = some x ∧ e.issue.stmp.toInt < zero+1000*x

/-- An id as its slot makes it. -/
def Made (name : String) (e : Returned ι) : Prop :=
  e.slot < 32 ∧ InWindow e.issue.stmp ∧ bits e.issue.sequence < 2^12 ∧
    e.issue.id = (registeredAt name e.slot).compose e.issue.stmp e.issue.sequence

/-- A live instance keeps its registration. Its own ids are not ahead of its fields, those
of earlier holders of its slot are from seconds gone by. -/
def HolderOk (name : String) (zero : Int) (now : Nat) (returned : List (Returned ι)) (i : ι)
    (p : Phase) : Prop :=
  ∀ self, p = .live self → ∃ m ≤ 4097, self.datacenterId = 1 ∧ self.machineId = Int64.ofNat m ∧
    self.redisKey = some (slotKey name m) ∧ bits self.sequence < 2^12 ∧
    ∀ e ∈ returned, e.slot = m → (e.issuer ≠ i → e.issue.stmp.toInt < zero+1000*now) ∧
      (e.issuer = i → e.issue.stmp < self.lastStmp ∨
        (e.issue.stmp = self.lastStmp ∧ bits e.issue.sequence ≤ bits self.sequence))

def Phase.Born : Phase → Prop
  | .live _ => True
  | .ended => True
  | _ => False

structure Ledger (name : String) (zero : Int) (f : Fleet ι) : Prop where
  kept : Kept name f.schedule
  made : ∀ e ∈ f.returned, Made name e
  spent : ∀ e ∈ f.returned, Spent name zero f.schedule.cluster.redis e
  born : ∀ e ∈ f.returned, (f.schedule.cluster.phase e.issuer).Born
  holders : ∀ i, HolderOk name zero f.schedule.cluster.redis.now f.returned i
    (f.schedule.cluster.phase i)
  rising : f.returned.Pairwise fun newer older => newer.slot = older.slot →
    older.issue.Before newer.issue

section Steps
variable {name : String} {zero : Int} {f : Fleet ι} {i : ι} {redis : ExpiringStore String}
  {now now' : Nat} {p : Phase} {returned : List (Returned ι)} {e : Returned ι}

omit [DecidableEq ι] in
private theorem Spent.set (h : Spent name zero redis e) (k : String) {ttl : Nat} (ht : 0 < ttl) :
    Spent name zero (redis.set k ttl) e := by
  obtain ⟨hnow,x,hx,hlt⟩ := h
  by_cases hk : slotKey name e.slot = k
  · refine ⟨hnow,redis.now+ttl,?_,?_⟩
    · rw [hk,ExpiringStore.expiry_set_self]
    · push_cast
      omega
  · exact ⟨hnow,x,(ExpiringStore.expiry_set_ne _ hk _).trans hx,hlt⟩

omit [DecidableEq ι] in
private theorem Spent.setIfAbsent (h : Spent name zero redis e) (k : String) {ttl : Nat} (ht : 0 < ttl) :
    Spent name zero (redis.setIfAbsent k ttl).2 e := by
  by_cases hk : redis.Present k
  · rw [ExpiringStore.setIfAbsent,if_pos hk]
    exact h
  · rw [ExpiringStore.setIfAbsent_absent hk]
    exact h.set k ht

omit [DecidableEq ι] in
private theorem HolderOk.later (h : HolderOk name zero now returned i p) (hle : now ≤ now') :
    HolderOk name zero now' returned i p := by
  intro self hp
  obtain ⟨m,hm,hd,hid,hkey,hq,hall⟩ := h self hp
  refine ⟨m,hm,hd,hid,hkey,hq,fun e he hs => ⟨fun hi => ?_,(hall e he hs).2⟩⟩
  have := (hall e he hs).1 hi
  omega

private theorem Ledger.enter (h : Ledger name zero f) {s : Schedule ι} (hkept : Kept name s)
    (hnow : f.schedule.cluster.redis.now ≤ s.cluster.redis.now)
    (hspent : ∀ e : Returned ι, Spent name zero f.schedule.cluster.redis e → Spent name zero s.cluster.redis e)
    (hother : ∀ j, j ≠ i → s.cluster.phase j = f.schedule.cluster.phase j)
    (hborn : (f.schedule.cluster.phase i).Born → (s.cluster.phase i).Born)
    (hi : HolderOk name zero s.cluster.redis.now f.returned i (s.cluster.phase i)) :
    Ledger name zero ⟨s,f.returned⟩ := by
  refine ⟨hkept,h.made,fun e he => hspent e (h.spent e he),fun e he => ?_,fun j => ?_,h.rising⟩
  · by_cases hj : e.issuer = i
    · have hb := h.born e he
      rw [hj] at hb ⊢
      exact hborn hb
    · have hb := h.born e he
      rwa [← hother _ hj] at hb
  · by_cases hj : j = i
    · exact hj ▸ hi
    · have hh := (h.holders j).later hnow
      rwa [← hother j hj] at hh

private theorem issued_sequence {g : SnowFlake} {t q : Int64} (hq : bits g.sequence < 2^12)
    (hcase : (t = g.lastStmp ∧ q = (g.sequence + 1) &&& MAX_SEQUENCE ∧ q ≠ 0) ∨
      (g.lastStmp < t ∧ q = 0)) : bits q < 2^12 := by
  rcases hcase with ⟨_,rfl,hn⟩ | ⟨_,rfl⟩
  · have := masked_succ hq hn
    omega
  · decide

/-- What a call of a live instance returns is ahead of all ids of its slot. -/
theorem Ledger.ahead (h : Ledger name zero f) {self : SnowFlakeAutoSequence}
    (hl : f.schedule.cluster.phase i = .live self) {m : Nat} (hm : m ≤ 4097)
    (hid : self.machineId = Int64.ofNat m) {t q : Int64}
    (ht : InSecond zero f.schedule.cluster.redis.now t)
    (hcase : (t = self.lastStmp ∧ q = (self.sequence + 1) &&& MAX_SEQUENCE ∧ q ≠ 0) ∨
      (self.lastStmp < t ∧ q = 0)) {e : Returned ι} (he : e ∈ f.returned) (hs : e.slot = m) (id : Int64) :
    e.issue.Before ⟨id,t,q⟩ := by
  obtain ⟨m',hm',_,hid',_,hq,hall⟩ := h.holders i self hl
  have hmm : m = m' := by
    rw [← bits_ofNat (m := m) (by omega),← bits_ofNat (m := m') (by omega),← hid,hid']
  obtain ⟨hothers,hown⟩ := hall e he (hs.trans hmm)
  have hbefore (hlt : e.issue.stmp < self.lastStmp ∨
      (e.issue.stmp = self.lastStmp ∧ bits e.issue.sequence ≤ bits self.sequence)) :
      e.issue.Before ⟨id,t,q⟩ := by
    rcases hcase with ⟨rfl,rfl,hn⟩ | ⟨hlater,_⟩
    · obtain ⟨hv,_⟩ := masked_succ hq hn
      rcases hlt with hlt | ⟨heq,hle⟩
      · exact .inl hlt
      · exact .inr ⟨heq,by dsimp only; omega⟩
    · rcases hlt with hlt | ⟨heq,_⟩
      · exact .inl (Int64.lt_trans hlt hlater)
      · exact .inl (heq ▸ hlater)
  by_cases hi : e.issuer = i
  · exact hbefore (hown hi)
  · refine .inl ?_
    have hold := hothers hi
    have := ht.1
    rw [Int64.lt_iff_toInt_lt]
    dsimp only
    omega

omit [DecidableEq ι] in
private theorem Ledger.takenOver (h : Ledger name zero f) (hphase : ¬ (f.schedule.cluster.phase i).Born)
    {m : Nat} (hm : m ≤ 4097) (hgone : ¬ f.schedule.cluster.redis.Present (slotKey name m)) :
    HolderOk name zero f.schedule.cluster.redis.now f.returned i (.live (registeredAt name m)) := by
  rintro self ⟨⟩
  refine ⟨m,hm,rfl,rfl,rfl,show bits 0 < 2^12 by decide,fun e he hs => ⟨fun _ => ?_,fun hi => ?_⟩⟩
  · obtain ⟨_,x,hx,hlt⟩ := h.spent e he
    have hx' : x ≤ f.schedule.cluster.redis.now := by
      by_contra hnow
      exact hgone ⟨x,hs ▸ hx,not_le.mp hnow⟩
    omega
  · exact absurd (hi ▸ h.born e he) hphase

private theorem Ledger.issue (h : Ledger name zero f) {self : SnowFlakeAutoSequence}
    (hl : f.schedule.cluster.phase i = .live self) (hslot : bits self.machineId < 32) {t q : Int64}
    (hw : InWindow t) (ht : InSecond zero f.schedule.cluster.redis.now t)
    (hcase : (t = self.lastStmp ∧ q = (self.sequence + 1) &&& MAX_SEQUENCE ∧ q ≠ 0) ∨
      (self.lastStmp < t ∧ q = 0))
    {s : Schedule ι} (hkept : Kept name s) (hredis : s.cluster.redis = f.schedule.cluster.redis)
    (hphase : s.cluster.phase = Function.update f.schedule.cluster.phase i
      (.live { self with sequence := q, lastStmp := t })) :
    Ledger name zero ⟨s,⟨i,bits self.machineId,⟨self.compose t q,t,q⟩⟩ :: f.returned⟩ := by
  obtain ⟨m,hm,hd,hid,hkey,hq,hall⟩ := h.holders i self hl
  have hb : bits self.machineId = m := by rw [hid,bits_ofNat (by omega)]
  have hq' := issued_sequence hq hcase
  -- rising within the slot, whoever returned the earlier ids
  have hahead (e : Returned ι) (he : e ∈ f.returned) (hs : e.slot = m) :=
    h.ahead hl hm hid ht hcase he hs (self.compose t q)
  rw [hb] at hslot ⊢
  refine ⟨hkept,?_,?_,?_,?_,List.pairwise_cons.mpr ⟨fun e he hs => hahead e he hs.symm,h.rising⟩⟩
  · intro e he
    rcases List.mem_cons.mp he with rfl | he
    · refine ⟨hslot,hw,hq',?_⟩
      simp only [compose,hd,hid,registeredAt]
    · exact h.made e he
  · intro e he
    rw [hredis]
    rcases List.mem_cons.mp he with rfl | he
    · obtain ⟨hnow,key,hk,x,hx,hdue⟩ := h.kept.lease i self hl
      obtain rfl : slotKey name m = key := Option.some.inj (hkey.symm.trans hk)
      have := ht.2
      exact ⟨ht.2,x,hx,by dsimp only; omega⟩
    · exact h.spent e he
  · intro e he
    rw [hphase]
    rcases List.mem_cons.mp he with rfl | he
    · rw [Function.update_self]
      trivial
    · by_cases hi : e.issuer = i
      · rw [hi,Function.update_self]
        trivial
      · rw [Function.update_of_ne hi]
        exact h.born e he
  · intro j
    rw [hphase,hredis]
    by_cases hj : j = i
    · subst hj
      rw [Function.update_self]
      rintro self' ⟨⟩
      refine ⟨m,hm,hd,hid,hkey,hq',fun e he hs => ?_⟩
      rcases List.mem_cons.mp he with rfl | he
      · exact ⟨fun hi => absurd rfl hi,fun _ => .inr ⟨rfl,le_refl _⟩⟩
      · refine ⟨(hall e he hs).1,fun _ => ?_⟩
        exact (hahead e he hs).imp id fun hlt => ⟨hlt.1,hlt.2.le⟩
    · rw [Function.update_of_ne hj]
      intro self' hl'
      obtain ⟨m',hm',hd',hid',hkey',hq',hall'⟩ := h.holders j self' hl'
      refine ⟨m',hm',hd',hid',hkey',hq',fun e he hs => ?_⟩
      rcases List.mem_cons.mp he with rfl | he
      · -- two live instances are in different slots
        refine absurd ?_ (h.kept.inv.apart i j self self' (Ne.symm hj) hl hl')
        rw [hkey,hkey',← hs]
      · exact hall' e he hs

private theorem Ledger.change (h : Ledger name zero f) {due : ι → Nat}
    (hkept : Kept name ⟨Cluster.enter { f.schedule.cluster with redis := redis } i p,due⟩)
    (hnow : redis.now = f.schedule.cluster.redis.now)
    (hspent : ∀ e : Returned ι, Spent name zero f.schedule.cluster.redis e → Spent name zero redis e)
    (hborn : (f.schedule.cluster.phase i).Born → p.Born)
    (hi : HolderOk name zero redis.now f.returned i p) :
    Ledger name zero ⟨⟨Cluster.enter { f.schedule.cluster with redis := redis } i p,due⟩,f.returned⟩ := by
  refine h.enter (i := i) hkept hnow.ge hspent (fun j hj => Function.update_of_ne hj ..) ?_ ?_
  · dsimp only [Cluster.enter]
    rwa [Function.update_self]
  · dsimp only [Cluster.enter]
    rwa [Function.update_self]

omit [DecidableEq ι] in
private theorem Ledger.answered (h : Ledger name zero f) {q : SetIfAbsent} {resume : Reply → Registration}
    (hp : f.schedule.cluster.phase i = .registering (.ask q resume)) :
    HolderOk name zero f.schedule.cluster.redis.now f.returned i
      (settle (resume (.ok (some (f.schedule.cluster.redis.setIfAbsent q.key q.seconds).1)))) := by
  have hphase : ¬ (f.schedule.cluster.phase i).Born := hp ▸ fun hb => hb
  obtain ⟨m,_,hm,hq,htrue,hnot⟩ := (h.kept.inv.asks i _ hp).self
  intro self hl
  have hd := settle_live hl
  have habs : (f.schedule.cluster.redis.setIfAbsent q.key q.seconds).1 = true := by
    by_contra hf
    exact hnot _ (fun he => hf (Option.some.inj (Except.ok.inj he))) self hd
  have hgone := ExpiringStore.setIfAbsent_fst.mp habs
  rw [habs,htrue] at hd
  obtain rfl : registeredAt name m = self := Except.ok.inj (Program.done.inj hd)
  rw [hq] at hgone
  exact h.takenOver hphase hm hgone _ rfl

private theorem Ledger.called (h : Ledger name zero f) {self : SnowFlakeAutoSequence} {g : SnowFlake}
    {readings : List Int64} {out : Except RuntimeException Int64} {due : ι → Nat}
    (hl : f.schedule.cluster.phase i = .live self) (hn : self.next readings = some ((out,g),[]))
    (hclock : ∀ r ∈ readings, InWindow r ∧ InSecond zero f.schedule.cluster.redis.now r)
    (hslot : bits self.machineId < 32)
    (hkept : Kept name ⟨f.schedule.cluster.enter i (.live { self with toSnowFlake := g }),due⟩) :
    Ledger name zero ⟨⟨f.schedule.cluster.enter i (.live { self with toSnowFlake := g }),due⟩,
      returnedBy f.schedule.cluster (.next i readings) ++ f.returned⟩ := by
  rcases next_cases hn with ⟨rfl,rfl⟩ | ⟨t,q,rfl,rfl,ht,hcase⟩
  · have hnone : returnedBy f.schedule.cluster (.next i readings) = [] := by
      simp only [returnedBy,hl,hn]
    rw [hnone]
    exact h.change hkept rfl (fun _ he => he) (fun _ => trivial) (hl ▸ h.holders i)
  · have hone : returnedBy f.schedule.cluster (.next i readings) =
        [⟨i,bits self.machineId,⟨self.compose t q,t,q⟩⟩] := by
      simp only [returnedBy,hl,hn]
    rw [hone]
    exact h.issue hl hslot (hclock t ht).1 (hclock t ht).2 hcase hkept rfl rfl

omit [DecidableEq ι] in
private theorem Ledger.elapsed (h : Ledger name zero f) {seconds : Nat} {due : ι → Nat}
    (hkept : Kept name ⟨{ f.schedule.cluster with redis := f.schedule.cluster.redis.elapse seconds },due⟩) :
    Ledger name zero
      ⟨⟨{ f.schedule.cluster with redis := f.schedule.cluster.redis.elapse seconds },due⟩,f.returned⟩ := by
  refine ⟨hkept,h.made,fun e he => ?_,h.born,fun j => ?_,h.rising⟩
  · obtain ⟨hnow,x,hx,hlt⟩ := h.spent e he
    refine ⟨?_,x,hx,hlt⟩
    dsimp only [ExpiringStore.elapse]
    push_cast
    omega
  · exact (h.holders j).later (Nat.le_add_right ..)

private theorem step_ledger (f : Fleet ι) (a : Label ι) (f' : Fleet ι) (h : Ledger name zero f)
    (hok : Punctual zero f a) (hs : advance name f a = some f') : Ledger name zero f' := by
  obtain ⟨s,ht,rfl⟩ := Option.map_eq_some_iff.mp hs
  have hkept := step_kept f.schedule a s h.kept hok.1 ht
  have hspent {i : ι} {q : SetIfAbsent} {resume : Reply → Registration}
      (hp : f.schedule.cluster.phase i = .registering (.ask q resume)) (e : Returned ι)
      (he : Spent name zero f.schedule.cluster.redis e) :
      Spent name zero (f.schedule.cluster.redis.setIfAbsent q.key q.seconds).2 e := by
    obtain ⟨m,_,_,hq,_⟩ := (h.kept.inv.asks i _ hp).self
    exact he.setIfAbsent q.key (hq ▸ show 0 < VALID_SECONDS by decide)
  obtain ⟨c,due⟩ := s
  cases step_moves (tick_moves ht).1 with
  | constructed hidle =>
    refine h.change hkept rfl (fun _ he => he) (fun hb => ?_) fun self hl => ?_
    · rw [hidle] at hb
      exact hb.elim
    · exact absurd (settle_live hl) (register_not_ok self)
  | @answered i q resume hp =>
    refine h.change hkept (ExpiringStore.now_setIfAbsent ..) (hspent hp) (fun hb => ?_) ?_
    · rw [hp] at hb
      exact hb.elim
    · rw [ExpiringStore.now_setIfAbsent]
      exact h.answered hp
  | @lost i _ q resume _ hp heffect =>
    refine h.change hkept ?_ (fun e he => ?_) (fun hb => ?_) fun self hl => ?_
    · rcases heffect with rfl | rfl
      · exact ExpiringStore.now_setIfAbsent ..
      · rfl
    · rcases heffect with rfl | rfl
      · exact hspent hp e he
      · exact he
    · rw [hp] at hb
      exact hb.elim
    · exact absurd hl (lost_not_live (h.kept.inv.asks i _ hp) self)
  | @renewed i _ _ _ _ =>
    exact h.enter (i := i) hkept (le_refl _) (fun _ he => he.set _ (by decide)) (fun _ _ => rfl)
      (fun hb => hb) (h.holders i)
  | @unrenewed i =>
    exact h.enter (i := i) hkept (le_refl _) (fun _ he => he) (fun _ _ => rfl) (fun hb => hb) (h.holders i)
  | @called i readings self _ _ hl hn _ =>
    obtain ⟨hclock,hslot⟩ := hok.2 i readings rfl
    exact h.called hl hn hclock (hslot self hl) hkept
  | elapsed => exact h.elapsed hkept
  | crashed => exact h.change hkept rfl (fun _ he => he) (fun _ => trivial) fun self hl => nomatch hl

omit [DecidableEq ι] in
private theorem ledger_init : Ledger name zero ({} : Fleet ι) where
  kept := kept_init
  made := nofun
  spent := nofun
  born := nofun
  holders _ := nofun
  rising := .nil

omit [DecidableEq ι] in
private theorem Ledger.id_lt (h : Ledger name zero f) {a b : Returned ι} (ha : a ∈ f.returned)
    (hb : b ∈ f.returned) (hs : a.slot = b.slot) (hab : b.issue.Before a.issue) :
    b.issue.id < a.issue.id := by
  obtain ⟨hsa,hwa,hqa,hia⟩ := h.made a ha
  obtain ⟨_,hwb,hqb,hib⟩ := h.made b hb
  have hd : bits (registeredAt name a.slot).datacenterId < 2^5 := show bits 1 < 2^5 by decide
  have hm : bits (registeredAt name a.slot).machineId < 2^5 := by
    rw [bits_machineId (by omega)]
    exact hsa
  rw [hia,hib,← hs]
  exact SnowFlakeSequence.compose_mono hd hm hwb hwa hqb hqa hab

omit [DecidableEq ι] in
private theorem Ledger.slot_eq (h : Ledger name zero f) {a b : Returned ι} (ha : a ∈ f.returned)
    (hb : b ∈ f.returned) (hid : a.issue.id = b.issue.id) : a.slot = b.slot := by
  obtain ⟨hsa,hwa,hqa,hia⟩ := h.made a ha
  obtain ⟨hsb,hwb,hqb,hib⟩ := h.made b hb
  have hor {m : Nat} (hm : m < 32) : 32 ||| m = 32+m :=
    (Nat.two_pow_add_eq_or_of_lt (i := 5) hm 1).symm
  obtain ⟨_,_,hw⟩ := compose_registered_inj (by omega) (by omega) hwa hwb hqa hqb
    (hia.symm.trans (hid.trans hib))
  rw [hor hsa,hor hsb] at hw
  omega

end Steps

end CloudWeb.Sequence.SnowFlakeLease
