import CloudWeb.Sequence.SnowFlakeLease

/-! The renewal task that the constructor of `SnowFlakeAutoSequence` leaves to its executor:
a first run after one second, then one every 59. Run on time it keeps each key of 60
seconds alive, with no second to spare. -/
namespace CloudWeb.Sequence.SnowFlakeLease
open Java Foundation SnowFlake SnowFlakeAutoSequence

def initialDelay : Nat := 1
def period : Nat := VALID_SECONDS - 1

/-- `due` is the second in which the task of a live instance is to run next. -/
structure Schedule (ι : Type*) where
  cluster : Cluster ι := {}
  due : ι → Nat := fun _ => 0

variable {ι : Type*} [DecidableEq ι]

/-- The task is scheduled behind the try that ends the constructor, never runs early, and is
due again one period after it was due, in any case, for its exceptions are caught. -/
def tick (name : String) (s : Schedule ι) (a : Label ι) : Option (Schedule ι) :=
  match a with
  | .setIfAbsent i _ =>
    (step name s.cluster a).map fun c =>
      { cluster := c, due := Function.update s.due i (c.redis.now+initialDelay) }
  | .renewalMachine i _ =>
    if s.due i ≤ s.cluster.redis.now then
      (step name s.cluster a).map fun c =>
        { cluster := c, due := Function.update s.due i (s.due i+period) }
    else none
  | .construct _ | .next _ _ | .elapse _ | .crash _ =>
    (step name s.cluster a).map fun c => { s with cluster := c }

/-- When the tasks are due after a step that leads to second `now`. -/
def dueAfter (due : ι → Nat) (now : Nat) : Label ι → ι → Nat
  | .setIfAbsent i _ => Function.update due i (now+initialDelay)
  | .renewalMachine i _ => Function.update due i (due i+period)
  | _ => due

theorem tick_moves {name : String} {s t : Schedule ι} {a : Label ι} (hs : tick name s a = some t) :
    step name s.cluster a = some t.cluster ∧ t.due = dueAfter s.due t.cluster.redis.now a ∧
      ∀ i applied, a = .renewalMachine i applied → s.due i ≤ s.cluster.redis.now := by
  cases a with
  | setIfAbsent i lost =>
    obtain ⟨c,hc,rfl⟩ := Option.map_eq_some_iff.mp hs
    exact ⟨hc,rfl,nofun⟩
  | renewalMachine i applied =>
    simp only [tick] at hs
    split at hs
    · next hdue =>
      obtain ⟨c,hc,rfl⟩ := Option.map_eq_some_iff.mp hs
      refine ⟨hc,rfl,fun j b hj => ?_⟩
      cases hj
      exact hdue
    · cases hs
  | construct | next | elapse | crash =>
    simp only [tick] at hs
    obtain ⟨c,hc,rfl⟩ := Option.map_eq_some_iff.mp hs
    exact ⟨hc,rfl,nofun⟩

/-- No second passes over a task that is due, and every renewal reaches Redis. -/
def OnTime (s : Schedule ι) : Label ι → Prop
  | .elapse seconds => ∀ i self, s.cluster.phase i = .live self → s.cluster.redis.now+seconds ≤ s.due i
  | .renewalMachine _ applied => applied = true
  | _ => True

/-- A live instance's key outlives the next run of its task. -/
def LeaseOk (redis : ExpiringStore String) (due : Nat) (p : Phase) : Prop :=
  ∀ self, p = .live self → redis.now ≤ due ∧
    ∃ key, self.redisKey = some key ∧ ∃ e, redis.expiry key = some e ∧ due < e

structure Kept (name : String) (s : Schedule ι) : Prop where
  inv : Inv name s.cluster
  lease : ∀ i, LeaseOk s.cluster.redis (s.due i) (s.cluster.phase i)

def KeysPresent (s : Schedule ι) : Prop :=
  ∀ i self, s.cluster.phase i = .live self → ∃ key ∈ self.redisKey, s.cluster.redis.Present key

section Steps
variable {name : String} {s t : Schedule ι} {i : ι} {redis redis' : ExpiringStore String} {due : Nat}
  {p : Phase}

private theorem LeaseOk.present {self : SnowFlakeAutoSequence} (h : LeaseOk redis due (.live self)) :
    ∃ key ∈ self.redisKey, redis.Present key := by
  obtain ⟨hnow,key,hkey,e,he,hdue⟩ := h self rfl
  exact ⟨key,hkey,e,he,by omega⟩

omit [DecidableEq ι] in
private theorem Kept.keysPresent (h : Kept name s) : KeysPresent s := by
  intro i self hl
  exact (hl ▸ h.lease i).present

private theorem leaseOk_of_not_live (h : ∀ self, p ≠ .live self) : LeaseOk redis due p :=
  fun self hp => absurd hp (h self)

private theorem LeaseOk.frame (h : LeaseOk redis due p) (hnow : redis'.now ≤ due ∨ redis'.now = redis.now)
    (hkey : ∀ self, p = .live self → ∀ key ∈ self.redisKey, redis'.expiry key = redis.expiry key) :
    LeaseOk redis' due p := by
  intro self hp
  obtain ⟨hn,key,hk,e,he,hdue⟩ := h self hp
  exact ⟨by omega,key,hk,e,(hkey self hp key hk).trans he,hdue⟩

omit [DecidableEq ι] in
private theorem Kept.leasesKept (h : Kept name s) (a : Label ι) : LeasesKept s.cluster a := by
  rcases a with _ | ⟨i,_ | _⟩ | _ | _ | _ | _
  case setIfAbsent.none =>
    intro q resume _ j self hl hkey
    obtain ⟨key,hk,hp⟩ := h.keysPresent j self hl
    obtain rfl : key = q.key := Option.some.inj ((Option.mem_def.mp hk).symm.trans hkey)
    exact hp
  all_goals trivial

private theorem leaseOk_update {due due' : ι → Nat} {phase phase' : ι → Phase}
    (h : ∀ j, LeaseOk redis (due j) (phase j)) (hi : LeaseOk redis' (due' i) (phase' i))
    (hother : ∀ j, j ≠ i → due' j = due j ∧ phase' j = phase j) (hnow : redis'.now = redis.now)
    (hkey : ∀ j, j ≠ i → ∀ self, phase j = .live self → ∀ key ∈ self.redisKey,
      redis'.expiry key = redis.expiry key) (j : ι) : LeaseOk redis' (due' j) (phase' j) := by
  by_cases hj : j = i
  · exact hj ▸ hi
  · obtain ⟨hd,hp⟩ := hother j hj
    rw [hd,hp]
    exact (h j).frame (.inr hnow) (hkey j hj)

/-- A registration that has just succeeded: 60 seconds to live, the first run in one. -/
theorem leaseOk_registered {q : SetIfAbsent} {resume : Reply → Registration}
    (hasks : (Program.ask q resume : Registration).Every (Asks name))
    (hp : settle (resume (.ok (some (redis.setIfAbsent q.key q.seconds).1))) = p) :
    LeaseOk (redis.setIfAbsent q.key q.seconds).2 (redis.now+initialDelay) p := by
  intro self hlive
  obtain ⟨habs,hkey,_⟩ := answered hasks (settle_live (hp.trans hlive))
  obtain ⟨m,_,_,hq,_⟩ := hasks.self
  have hset := ExpiringStore.setIfAbsent_absent (ExpiringStore.setIfAbsent_fst.mp habs) q.seconds
  refine ⟨by rw [ExpiringStore.now_setIfAbsent]; exact Nat.le_add_right ..,q.key,hkey,
    redis.now+q.seconds,?_,?_⟩
  · rw [hset,ExpiringStore.expiry_set_self]
  · have hdelay : initialDelay < VALID_SECONDS := by decide
    rw [hq]
    exact Nat.add_lt_add_left hdelay _

omit [DecidableEq ι] in
private theorem Kept.untouched (h : Kept name s) (k : String) (ttl : Nat) {j : ι}
    {self : SnowFlakeAutoSequence}
    (hl : s.cluster.phase j = .live self) {key : String} (hk : key ∈ self.redisKey) :
    (s.cluster.redis.setIfAbsent k ttl).2.expiry key = s.cluster.redis.expiry key := by
  obtain ⟨key',hk',hp⟩ := h.keysPresent j self hl
  obtain rfl : key' = key := Option.some.inj ((Option.mem_def.mp hk').symm.trans hk)
  exact ExpiringStore.setIfAbsent_present hp k ttl

private theorem Kept.enter (h : Kept name s) (hp : LeaseOk s.cluster.redis (s.due i) p) (j : ι) :
    LeaseOk s.cluster.redis (s.due j) ((s.cluster.enter i p).phase j) := by
  refine leaseOk_update (i := i) h.lease ?_ (fun j hj => ⟨rfl,Function.update_of_ne hj ..⟩) rfl
    (fun _ _ _ _ _ _ => rfl) j
  dsimp only [Cluster.enter]
  rwa [Function.update_self]

private theorem Kept.tried (h : Kept name s) {q : SetIfAbsent}
    (heffect : redis = (s.cluster.redis.setIfAbsent q.key q.seconds).2 ∨ redis = s.cluster.redis)
    (hp : LeaseOk redis (s.cluster.redis.now+initialDelay) p) (j : ι) :
    LeaseOk redis (Function.update s.due i (redis.now+initialDelay) j)
      (Function.update s.cluster.phase i p j) := by
  have hnow : redis.now = s.cluster.redis.now := by
    rcases heffect with rfl | rfl
    · exact ExpiringStore.now_setIfAbsent ..
    · rfl
  refine leaseOk_update (i := i) h.lease ?_
    (fun j hj => ⟨Function.update_of_ne hj ..,Function.update_of_ne hj ..⟩) hnow
    (fun j _ self hl key hk => ?_) j
  · rw [Function.update_self,Function.update_self,hnow]
    exact hp
  · rcases heffect with rfl | rfl
    · exact h.untouched q.key q.seconds hl hk
    · rfl

private theorem Kept.renewed (h : Kept name s) {self : SnowFlakeAutoSequence} {key : String}
    (hl : s.cluster.phase i = .live self) (hkey : self.redisKey = some key)
    (hdue : s.due i ≤ s.cluster.redis.now) (j : ι) :
    LeaseOk (s.cluster.redis.set key VALID_SECONDS) (Function.update s.due i (s.due i+period) j)
      (s.cluster.phase j) := by
  obtain ⟨hnow,_⟩ := h.lease i self hl
  refine leaseOk_update (i := i) h.lease ?_ ?_ ?_ (fun j hj self' hl' key' hk' => ?_) j
  · rw [Function.update_self,hl]
    rintro self' ⟨⟩
    refine ⟨hnow.trans (Nat.le_add_right ..),key,hkey,_,ExpiringStore.expiry_set_self ..,?_⟩
    have hp : period < VALID_SECONDS := by decide
    omega
  · exact fun j hj => ⟨Function.update_of_ne hj ..,rfl⟩
  · rfl
  · apply ExpiringStore.expiry_set_ne
    rintro rfl
    exact h.inv.apart i j self self' hj.symm hl hl' (hkey.trans hk'.symm)

theorem step_kept (s : Schedule ι) (a : Label ι) (t : Schedule ι) (h : Kept name s) (hok : OnTime s a)
    (hs : tick name s a = some t) : Kept name t := by
  obtain ⟨hstep,hdue,hrun⟩ := tick_moves hs
  refine ⟨step_inv s.cluster a t.cluster h.inv (h.leasesKept a) hstep,?_⟩
  obtain ⟨c,due⟩ := t
  dsimp only at hdue hstep
  subst hdue
  cases step_moves hstep with
  | constructed _ =>
    exact h.enter (leaseOk_of_not_live fun self hl => register_not_ok self (settle_live hl))
  | @answered i q resume hp => exact h.tried (.inl rfl) (leaseOk_registered (h.inv.asks i _ hp) rfl)
  | @lost i _ q resume _ hp heffect =>
    exact h.tried heffect (leaseOk_of_not_live (lost_not_live (h.inv.asks i _ hp)))
  | @renewed i self key hl hkey => exact h.renewed hl hkey (hrun i true rfl)
  | unrenewed => exact absurd hok Bool.false_ne_true
  | @called i _ self _ g hl _ _ =>
    refine h.enter ?_
    rintro self' ⟨⟩
    exact h.lease i self hl
  | elapsed =>
    intro i self hl
    obtain ⟨_,hlease⟩ := h.lease i self hl
    exact ⟨hok i self hl,hlease⟩
  | crashed => exact h.enter (leaseOk_of_not_live nofun)

omit [DecidableEq ι] in
theorem kept_init : Kept name ({} : Schedule ι) where
  inv := inv_init
  lease _ := leaseOk_of_not_live nofun

end Steps

/-- As long as tasks run in the second they are due and their renewals reach Redis, every
live instance's key is there, registrations stay exclusive and renewals stay off the keys
of other instances. -/
theorem exclusive_on_schedule (name : String) (as : List (Label ι))
    (hok : StepsMeet (tick name) OnTime {} as) :
    Always (tick name) (fun s => KeysPresent s ∧ Exclusive s.cluster) {} as ∧
      StepsMeet (tick name) (fun s a => RenewsOwn s.cluster a) {} as :=
  ⟨(hok.always step_kept kept_init).mono fun _ h => ⟨h.keysPresent,h.inv.exclusive⟩,
    hok.imp step_kept (fun _ a h _ => h.inv.renewsOwn a) kept_init⟩

theorem exclusive_over_two_renewals :
    let as : List (Label Bool) := [.construct false,.setIfAbsent false none,.elapse 1,
      .renewalMachine false true,.elapse 59,.renewalMachine false true,.elapse 59,.construct true,
      .setIfAbsent true none]
    Always (tick "order") (fun s => KeysPresent s ∧ Exclusive s.cluster) {} as ∧
      StepsMeet (tick "order") (fun s a => RenewsOwn s.cluster a) {} as := by
  intro as
  obtain ⟨resume,hnew,htrue⟩ := new_first "order"
  refine exclusive_on_schedule "order" as ?_
  simp [as,StepsMeet,tick,step,OnTime,Cluster.enter,settle,hnew,htrue,ExpiringStore.setIfAbsent,
    ExpiringStore.set,ExpiringStore.elapse,VALID_SECONDS,initialDelay,period,registeredAt]

end CloudWeb.Sequence.SnowFlakeLease
