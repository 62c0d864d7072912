import CloudWeb.Foundation.ExpiringStore
import CloudWeb.Sequence.SnowFlakeAutoSequence

/-! Registrations are leases: a Redis key that lives 60 seconds unless it is renewed.
Any number of instances register, renew, fall behind, stop and generate ids. -/
namespace CloudWeb.Sequence
open Java Foundation SnowFlake

namespace SnowFlakeLease
open SnowFlakeAutoSequence

inductive Phase
  | idle
  | registering (p : Registration)
  | live (self : SnowFlakeAutoSequence)
  | ended

def settle : Registration → Phase
  | .done (.ok self) => .live self
  | .done (.error _) => .ended
  | .ask q resume => .registering (.ask q resume)

structure Cluster (ι : Type*) where
  redis : ExpiringStore String := {}
  phase : ι → Phase := fun _ => .idle

inductive Label (ι : Type*)
  | construct (i : ι)
  /-- One try of the loops. The answer may get lost, with or without an effect. -/
  | setIfAbsent (i : ι) (lost : Option Bool)
  /-- `renewalMachine` catches every exception; what counts is whether `set` took effect. -/
  | renewalMachine (i : ι) (applied : Bool)
  | next (i : ι) (readings : List Int64)
  | elapse (seconds : Nat)
  | crash (i : ι)

variable {ι : Type*} [DecidableEq ι]

def Cluster.enter (s : Cluster ι) (i : ι) (p : Phase) : Cluster ι :=
  { s with phase := Function.update s.phase i p }

/-- `renewalMachine` sets the key without looking at it. No clock reads `Long.MAX_VALUE`. -/
def step (name : String) (s : Cluster ι) : Label ι → Option (Cluster ι)
  | .construct i =>
    match s.phase i with
    | .idle => some (s.enter i (settle (new name)))
    | _ => none
  | .setIfAbsent i lost =>
    match s.phase i with
    | .registering (.ask q resume) =>
      let (absent,redis) := s.redis.setIfAbsent q.key q.seconds
      match lost with
      | none => some (Cluster.enter { s with redis := redis } i (settle (resume (.ok (some absent)))))
      | some applied => some (Cluster.enter { s with redis := if applied then redis else s.redis } i
          (settle (resume (.error .unavailable))))
    | _ => none
  | .renewalMachine i applied =>
    match s.phase i with
    | .live { redisKey := some key, .. } =>
      if applied then some { s with redis := s.redis.set key VALID_SECONDS } else some s
    | _ => none
  | .next i readings =>
    match s.phase i with
    | .live self =>
      match self.next readings with
      | some ((_,g),[]) =>
        if readings.all (· < Int64.maxValue) then
          some (s.enter i (.live { self with toSnowFlake := g }))
        else none
      | _ => none
    | _ => none
  | .elapse seconds => some { s with redis := s.redis.elapse seconds }
  | .crash i => some (s.enter i .ended)

/-- Everything a step can be. A try whose answer is lost may have had its effect. -/
inductive Moves (name : String) (s : Cluster ι) : Label ι → Cluster ι → Prop
  | constructed {i} (idle : s.phase i = .idle) :
      Moves name s (.construct i) (s.enter i (settle (new name)))
  | answered {i q resume} (asks : s.phase i = .registering (.ask q resume)) :
      Moves name s (.setIfAbsent i none)
        (Cluster.enter { s with redis := (s.redis.setIfAbsent q.key q.seconds).2 } i
          (settle (resume (.ok (some (s.redis.setIfAbsent q.key q.seconds).1)))))
  | lost {i applied q resume redis} (asks : s.phase i = .registering (.ask q resume))
      (effect : redis = (s.redis.setIfAbsent q.key q.seconds).2 ∨ redis = s.redis) :
      Moves name s (.setIfAbsent i (some applied))
        (Cluster.enter { s with redis := redis } i (settle (resume (.error .unavailable))))
  | renewed {i self key} (live : s.phase i = .live self) (holds : self.redisKey = some key) :
      Moves name s (.renewalMachine i true) { s with redis := s.redis.set key VALID_SECONDS }
  | unrenewed {i} : Moves name s (.renewalMachine i false) s
  | called {i readings self out g} (live : s.phase i = .live self)
      (call : self.next readings = some ((out,g),[])) (clock : ∀ r ∈ readings, r < Int64.maxValue) :
      Moves name s (.next i readings) (s.enter i (.live { self with toSnowFlake := g }))
  | elapsed {seconds} : Moves name s (.elapse seconds) { s with redis := s.redis.elapse seconds }
  | crashed {i} : Moves name s (.crash i) (s.enter i .ended)

theorem step_moves {name : String} {s t : Cluster ι} {a : Label ι} (hs : step name s a = some t) :
    Moves name s a t := by
  cases a with
  | construct i =>
    simp only [step] at hs
    split at hs <;> cases hs
    next hi => exact .constructed hi
  | setIfAbsent i lost =>
    simp only [step] at hs
    split at hs
    · next hp =>
      rcases lost with _ | applied
      · cases hs
        exact .answered hp
      · cases hs
        refine .lost hp ?_
        cases applied
        · exact .inr rfl
        · exact .inl rfl
    · cases hs
  | renewalMachine i applied =>
    simp only [step] at hs
    split at hs
    · next hl =>
      cases applied
      · cases hs
        exact .unrenewed
      · cases hs
        exact .renewed hl rfl
    · cases hs
  | next i readings =>
    simp only [step] at hs
    split at hs
    · next hl =>
      split at hs
      · next hn =>
        split at hs <;> cases hs
        next hr => exact .called hl hn fun r hm => of_decide_eq_true (List.all_eq_true.mp hr r hm)
      · cases hs
    · cases hs
  | elapse seconds =>
    cases hs
    exact .elapsed
  | crash i =>
    cases hs
    exact .crashed

def CanReturn (self : SnowFlakeAutoSequence) : Prop :=
  ∃ readings id g rest, self.toSnowFlake.next readings = some ((.ok id,g),rest)

/-- No two live instances that can return ids have the same key. -/
def Exclusive (s : Cluster ι) : Prop :=
  ∀ i j self self', i ≠ j → s.phase i = .live self → s.phase j = .live self' →
    CanReturn self → CanReturn self' → self.redisKey ≠ self'.redisKey

/-- A renewal that takes effect does so on a key no other live instance has. -/
def RenewsOwn (s : Cluster ι) : Label ι → Prop
  | .renewalMachine i true => ∀ j self self', i ≠ j → s.phase i = .live self →
      s.phase j = .live self' → self.redisKey ≠ self'.redisKey
  | _ => True

/-- A try that Redis answers does not meet a live instance's slot after its key vanished. -/
def LeasesKept (s : Cluster ι) : Label ι → Prop
  | .setIfAbsent i none => ∀ q resume, s.phase i = .registering (.ask q resume) →
      ∀ j self, s.phase j = .live self → self.redisKey = some q.key → s.redis.Present q.key
  | _ => True

structure Inv (name : String) (s : Cluster ι) : Prop where
  asks : ∀ i p, s.phase i = .registering p → p.Every (Asks name)
  clock : ∀ i self, s.phase i = .live self → self.lastStmp < Int64.maxValue
  apart : ∀ i j self self', i ≠ j → s.phase i = .live self → s.phase j = .live self' →
    self.redisKey ≠ self'.redisKey

theorem settle_live {p : Registration} {self : SnowFlakeAutoSequence} (h : settle p = .live self) :
    p = .done (.ok self) := by
  rcases p with (e | self') | ⟨q,resume⟩
  · cases h
  · cases h
    rfl
  · cases h

private theorem settle_registering {p p' : Registration} (h : settle p = .registering p') : p = p' := by
  rcases p with (e | self') | ⟨q,resume⟩
  · cases h
  · cases h
  · cases h
    rfl

private theorem canReturn {self : SnowFlakeAutoSequence} (h : self.lastStmp < Int64.maxValue) :
    CanReturn self := ⟨_,_,_,_,next_later h⟩

section Invariant
variable {name : String} {s t : Cluster ι}

omit [DecidableEq ι] in
theorem Inv.redis (h : Inv name s) (redis : ExpiringStore String) :
    Inv name { s with redis := redis } := ⟨h.asks,h.clock,h.apart⟩

theorem Inv.enter (h : Inv name s) {i : ι} {p : Phase}
    (hasks : ∀ r, p = .registering r → r.Every (Asks name))
    (hlive : ∀ self, p = .live self → self.lastStmp < Int64.maxValue ∧
      ∀ j self', i ≠ j → s.phase j = .live self' → self.redisKey ≠ self'.redisKey) :
    Inv name (s.enter i p) := by
  refine ⟨?_,?_,fun j k self self' hjk hl hl' => ?_⟩
  · apply (Function.forall_update_iff s.phase fun _ p => ∀ r, p = .registering r →
      r.Every (Asks name)).mpr
    exact ⟨hasks,fun j _ => h.asks j⟩
  · apply (Function.forall_update_iff s.phase fun _ p => ∀ self, p = .live self →
      self.lastStmp < Int64.maxValue).mpr
    exact ⟨fun self hl => (hlive self hl).1,fun j _ => h.clock j⟩
  · refine pairwise_update (f := s.phase) (i := i) (b := p) (R := fun _ _ (p p' : Phase) =>
      ∀ self self', p = .live self → p' = .live self' → self.redisKey ≠ self'.redisKey)
      ?_ ?_ ?_ j k hjk self self' hl hl'
    · exact fun _ _ _ _ hp self self' hl hl' => (hp self' self hl' hl).symm
    · exact fun j k hjk self self' => h.apart j k self self' hjk
    · exact fun j hj self self' hl => (hlive self hl).2 j self' hj.symm

theorem answered {q : SetIfAbsent} {resume : Reply → Registration} {self : SnowFlakeAutoSequence}
    (h : (Program.ask q resume : Registration).Every (Asks name)) {b : Bool}
    (hd : resume (.ok (some b)) = .done (.ok self)) :
    b = true ∧ self.redisKey = some q.key ∧ self.lastStmp = -1 := by
  obtain ⟨m,_,_,hq,htrue,hnot⟩ := h.self
  cases b with
  | false => exact absurd hd (hnot _ (by decide) self)
  | true =>
    obtain rfl : registeredAt name m = self := by
      rw [htrue] at hd
      injection hd with hd
      injection hd
    exact ⟨rfl,by rw [hq]; rfl,rfl⟩

private theorem next_clock {g g' : SnowFlake} {readings rest : List Int64}
    {out : Except RuntimeException Int64} (h : g.next readings = some ((out,g'),rest))
    (hg : g.lastStmp < Int64.maxValue) (hr : ∀ r ∈ readings, r < Int64.maxValue) :
    g'.lastStmp < Int64.maxValue := by
  rcases next_cases h with ⟨_,rfl⟩ | ⟨t,q,_,rfl,ht,_⟩
  · exact hg
  · exact hr t ht

theorem lost_not_live {q : SetIfAbsent} {resume : Reply → Registration}
    (h : (Program.ask q resume : Registration).Every (Asks name)) (self : SnowFlakeAutoSequence) :
    settle (resume (.error .unavailable)) ≠ .live self := by
  obtain ⟨m,_,_,_,_,hnot⟩ := h.self
  exact fun hl => hnot _ (by decide) self (settle_live hl)

theorem step_inv (s : Cluster ι) (a : Label ι) (t : Cluster ι) (h : Inv name s)
    (hok : LeasesKept s a) (hs : step name s a = some t) : Inv name t := by
  cases step_moves hs with
  | constructed _ =>
    refine h.enter (fun r hr => ?_) fun self hl => ?_
    · exact settle_registering hr ▸ new_asks name
    · exact absurd (settle_live hl) (register_not_ok self)
  | @answered i q resume hp =>
    have hasks := h.asks i _ hp
    refine (h.redis _).enter (fun r hr => ?_) fun self hl => ?_
    · exact settle_registering hr ▸ hasks.resume _
    · obtain ⟨habs,hkey,hlast⟩ := answered hasks (settle_live hl)
      refine ⟨hlast ▸ by decide,fun j self' _ hl' he => ?_⟩
      exact ExpiringStore.setIfAbsent_fst.mp habs (hok q resume hp j self' hl' (he.symm.trans hkey))
  | @lost i _ q resume _ hp _ =>
    have hasks := h.asks i _ hp
    refine (h.redis _).enter (fun r hr => ?_) fun self hl => ?_
    · exact settle_registering hr ▸ hasks.resume _
    · exact absurd hl (lost_not_live hasks self)
  | renewed _ _ => exact h.redis _
  | unrenewed => exact h
  | @called i _ self _ g hp hn hclock =>
    refine h.enter (fun r hl => ?_) fun self' hl => ?_
    · cases hl
    · cases hl
      exact ⟨next_clock hn (h.clock i self hp) hclock,
        fun j self' hij hl' => h.apart i j self self' hij hp hl'⟩
  | elapsed => exact h.redis _
  | crashed =>
    refine h.enter (fun r hr => ?_) fun self hl => ?_
    · cases hr
    · cases hl

omit [DecidableEq ι] in
theorem Inv.exclusive (h : Inv name s) : Exclusive s :=
  fun i j self self' hij hl hl' _ _ => h.apart i j self self' hij hl hl'

omit [DecidableEq ι] in
theorem Inv.renewsOwn (h : Inv name s) (a : Label ι) : RenewsOwn s a := by
  rcases a with _ | _ | ⟨i,_ | _⟩ | _ | _ | _
  case renewalMachine.true => exact fun j self self' => h.apart i j self self'
  all_goals trivial

private theorem kept_of_exclusive (h : Inv name s) {a : Label ι} (hs : step name s a = some t)
    (ht : Exclusive t) : LeasesKept s a := by
  rcases a with _ | ⟨i,_ | _⟩ | _ | _ | _ | _
  case setIfAbsent.none =>
    intro q resume hp j self hl hkey
    by_contra habs
    obtain ⟨m,_,_,hq,htrue,_⟩ := (h.asks i _ hp).self
    simp only [step,hp,ExpiringStore.setIfAbsent,if_neg habs,htrue,settle] at hs
    cases hs
    have hij : j ≠ i := by
      rintro rfl
      rw [hp] at hl
      cases hl
    refine ht i j (registeredAt name m) self hij.symm (Function.update_self ..)
      ((Function.update_of_ne hij ..).trans hl) (canReturn (show (-1 : Int64) < _ by decide))
      (canReturn (h.clock j self hl)) ?_
    rw [hkey,hq]
    rfl
  all_goals trivial

omit [DecidableEq ι] in
theorem inv_init : Inv name ({} : Cluster ι) := by
  have hidle (i : ι) (p : Phase) (h : ({} : Cluster ι).phase i = p) : p = .idle := h.symm
  refine ⟨fun i r h => ?_,fun i self h => ?_,fun i j self self' _ h => ?_⟩
  · cases hidle i _ h
  · cases hidle i _ h
  · cases hidle i _ h

/-- In any run, registrations stay exclusive and renewals stay off other instances'
keys exactly when no answered try meets the lapsed slot of a live instance. -/
theorem exclusive_iff_leases_kept (name : String) (as : List (Label ι)) (s : Cluster ι)
    (h : exec (step name) {} as = some s) :
    (Always (step name) Exclusive {} as ∧ StepsMeet (step name) RenewsOwn {} as) ↔
      StepsMeet (step name) LeasesKept {} as := by
  constructor
  · rintro ⟨hexcl,_⟩
    exact hexcl.stepsMeet step_inv (fun s a t hi hs ht => kept_of_exclusive hi hs ht) inv_init h
  · intro hok
    exact ⟨(hok.always step_inv inv_init).mono fun t ht => ht.exclusive,
      hok.imp step_inv (fun s a hi _ => hi.renewsOwn a) inv_init⟩

end Invariant

theorem exclusive_after_renewal :
    let as : List (Label Bool) := [.construct false,.setIfAbsent false none,.elapse 59,
      .renewalMachine false true,.elapse 59,.construct true,.setIfAbsent true none]
    Always (step "order") Exclusive {} as ∧ StepsMeet (step "order") RenewsOwn {} as := by
  intro as
  obtain ⟨resume,hnew,htrue⟩ := new_first "order"
  have hrun : ∃ s : Cluster Bool, exec (step "order") {} as = some s := by
    simp [as,exec_cons,step,Cluster.enter,settle,hnew,htrue,ExpiringStore.setIfAbsent,VALID_SECONDS,
      registeredAt]
  obtain ⟨s,he⟩ := hrun
  refine (exclusive_iff_leases_kept "order" as s he).mpr ?_
  simp [as,StepsMeet,step,LeasesKept,Cluster.enter,settle,hnew,htrue,ExpiringStore.setIfAbsent,
    VALID_SECONDS,registeredAt]

/-- Sixty seconds without a renewal: the slot is registered again while its first
owner lives, and that owner's late renewal extends the other's key. -/
theorem lapsed_slot_taken_twice :
    ¬ ∀ (name : String) (as : List (Label Bool)) (s : Cluster Bool),
      exec (step name) {} as = some s →
        Always (step name) Exclusive {} as ∧ StepsMeet (step name) RenewsOwn {} as := by
  intro h
  obtain ⟨resume,hnew,htrue⟩ := new_first "order"
  have hrun : ∃ s : Cluster Bool, exec (step "order") {} [.construct false,.setIfAbsent false none,
      .elapse 60,.construct true,.setIfAbsent true none,.renewalMachine false true] = some s ∧
      s.phase false = .live (registeredAt "order" 1) ∧
      s.phase true = .live (registeredAt "order" 1) := by
    simp [exec_cons,step,Cluster.enter,settle,hnew,htrue,ExpiringStore.setIfAbsent,VALID_SECONDS,
      registeredAt]
  obtain ⟨s,he,hf,ht⟩ := hrun
  have hcan : CanReturn (registeredAt "order" 1) := canReturn (show (-1 : Int64) < _ by decide)
  exact (h "order" _ s he).1.last he false true _ _ (by decide) hf ht hcan hcan rfl

end SnowFlakeLease
end CloudWeb.Sequence
