import CloudWeb.Foundation.Dispenser
import CloudWeb.Sequence.RedisCounter

/-! `NumberCacheSequence`: a Redis counter advanced by whole segments, and a local
cache of the last one. Any number of instances run against one counter; a call that
needs a segment is in flight between its request, Redis and its answer. -/
namespace CloudWeb.Sequence
open Java Foundation

/-- The fields that change. -/
structure NumberCacheSequence where
  maxCacheValue : Int := 0
  curValue : Int := 0
  deriving DecidableEq, Repr

namespace NumberCacheSequence

def PERIOD : Int := 100

def namespaceKey (name : String) : String := "concurrent:sequence:" ++ name

/-- The test at the head of `next()`. -/
def low (q : NumberCacheSequence) : Bool := toLong (q.maxCacheValue-q.curValue) < 10

theorem low_false {q : NumberCacheSequence} (hle : q.curValue ≤ q.maxCacheValue)
    (hmax : q.maxCacheValue-q.curValue ≤ Long.MAX_VALUE) (hl : q.low = false) :
    q.curValue+10 ≤ q.maxCacheValue := by
  have hl' := of_decide_eq_false hl
  rw [toLong_of_nonneg (by omega) hmax] at hl'
  omega

/-- `reply` is what `getAndAdd(PERIOD)` answered; an exception leaves both fields. -/
def fetchSegment (reply : Except RedisException Int) (q : NumberCacheSequence) :
    Except RedisException Unit × NumberCacheSequence :=
  match reply with
  | .error e => (.error e,q)
  | .ok v => (.ok (),{ curValue := v, maxCacheValue := toLong (v+PERIOD) })

/-- The result of one call and the fields after it. Only a low cache uses `reply`. -/
def next (reply : Except RedisException Int) (q : NumberCacheSequence) :
    Except RedisException Int × NumberCacheSequence :=
  match if q.low then fetchSegment reply q else (.ok (),q) with
  | (.error e,q) => (.error e,q)
  | (.ok (),q) => (.ok q.curValue,{ q with curValue := toLong (q.curValue+1) })

private theorem next_error {q q' : NumberCacheSequence} {reply : Except RedisException Int}
    {e : RedisException} (h : q.next reply = (.error e,q')) : q' = q := by
  unfold next at h
  cases hl : q.low with
  | false => simp [hl] at h
  | true =>
    cases reply with
    | error d =>
      simp only [hl,if_true,fetchSegment,Prod.mk.injEq] at h
      exact h.2.symm
    | ok v => simp [hl,fetchSegment] at h

theorem next_cached {q : NumberCacheSequence} (hl : q.low = false)
    (reply : Except RedisException Int) :
    q.next reply = (.ok q.curValue,{ q with curValue := toLong (q.curValue+1) }) := by
  simp [next,hl]

theorem next_refill {q : NumberCacheSequence} (hl : q.low = true) (v : Int) :
    q.next (.ok v) = (.ok v,{ maxCacheValue := toLong (v+PERIOD), curValue := toLong (v+1) }) := by
  simp [next,hl,fetchSegment]

theorem next_refused {q : NumberCacheSequence} (hl : q.low = true) (e : RedisException) :
    q.next (.error e) = (.error e,q) := by
  simp [next,hl,fetchSegment]

/-! ## Instances on one counter -/

/-- A call that needs a segment: asked for, or already answered by Redis. -/
inductive Call
  | sent
  | replied (v : Int)
  deriving DecidableEq, Repr

structure Party where
  node : NumberCacheSequence := {}
  call : Option Call := none
  epoch : Nat := 0
  deriving DecidableEq, Repr

/-- `reserved` and `returned` record, newest first, which incarnation was granted
and has returned what. `orphans` counts requests whose caller has gone. -/
structure Cluster (ι : Type*) where
  counter : Int
  party : ι → Party
  orphans : Nat
  reserved : List (Reservation (ι × Nat) Int)
  returned : List ((ι × Nat) × Int)

variable {ι : Type*} [DecidableEq ι]

def boot (start : Int) : Cluster ι := ⟨start,fun _ => {},0,[],[]⟩

/-- What the scheduler may do. `next()` is synchronized, so an instance has at most
one call in flight; `restart` loses the fields and whatever was in flight. -/
inductive Event (ι : Type*)
  | call (i : ι)
  | serve (i : ι)
  | receive (i : ι)
  | fail (i : ι)
  | restart (i : ι)
  | stray
  deriving DecidableEq, Repr

def Cluster.finish (s : Cluster ι) (i : ι) (reply : Except RedisException Int) : Cluster ι :=
  let p := s.party i
  let out := p.node.next reply
  { s with
    party := Function.update s.party i { p with node := out.2, call := none }
    returned := match out.1 with
      | .ok n => ((i,p.epoch),n) :: s.returned
      | .error _ => s.returned }

def step (s : Cluster ι) : Event ι → Option (Cluster ι)
  | .call i =>
    let p := s.party i
    match p.call with
    | some _ => none
    | none =>
      if p.node.low then some { s with party := Function.update s.party i { p with call := some .sent } }
      else some (s.finish i (.error .unavailable))
  | .serve i =>
    let p := s.party i
    match p.call with
    | some .sent =>
      match RAtomicLong.getAndAdd PERIOD s.counter with
      | some (v,c) => some { s with
          counter := c
          party := Function.update s.party i { p with call := some (.replied v) }
          reserved := ⟨(i,p.epoch),v,c⟩ :: s.reserved }
      | none => some (s.finish i (.error .overflow))
    | _ => none
  | .receive i =>
    match (s.party i).call with
    | some (.replied v) => some (s.finish i (.ok v))
    | _ => none
  | .fail i =>
    match (s.party i).call with
    | some .sent => some { s.finish i (.error .unavailable) with orphans := s.orphans+1 }
    | some (.replied _) => some (s.finish i (.error .unavailable))
    | none => none
  | .restart i =>
    let p := s.party i
    some { s with
      party := Function.update s.party i { epoch := p.epoch+1 }
      orphans := if p.call = some .sent then s.orphans+1 else s.orphans }
  | .stray =>
    if 0 < s.orphans then
      match RAtomicLong.getAndAdd PERIOD s.counter with
      | some (_,c) => some { s with counter := c, orphans := s.orphans-1 }
      | none => some { s with orphans := s.orphans-1 }
    else none

/-! ## Refinement of the abstract generator -/

/-- The cache of one instance against the counter and the reservations: all it may
still issue is its own and ahead of `cursor`, and so is an answer on its way. -/
structure PartyOk (counter : Int) (reserved : List (Reservation (ι × Nat) Int)) (i : ι)
    (p : Party) (cursor : Int) : Prop where
  nonneg : 0 ≤ p.node.curValue
  ordered : p.node.curValue ≤ p.node.maxCacheValue
  below : p.node.maxCacheValue ≤ counter
  passed : cursor ≤ counter
  ahead : p.node.curValue < p.node.maxCacheValue → cursor ≤ p.node.curValue
  own : ∀ n, p.node.curValue ≤ n → n < p.node.maxCacheValue → Owned reserved (i,p.epoch) n
  waiting : p.call ≠ none → p.node.low = true
  reply : ∀ v, p.call = some (.replied v) → cursor ≤ v ∧ 0 ≤ v ∧ v+PERIOD ≤ counter ∧
    ∀ n, v ≤ n → n < v+PERIOD → Owned reserved (i,p.epoch) n

/-- A cluster and the abstract generator it implements; incarnations of one
instance share a seat. -/
structure Matches (s : Cluster ι) (d : Dispenser (ι × Nat) ι Int) : Prop where
  ledger : d.ledger = s.reserved
  issued : d.issued = s.returned
  counter : 0 ≤ s.counter ∧ s.counter ≤ Long.MAX_VALUE
  top : ∀ r ∈ s.reserved, r.hi ≤ s.counter ∧ r.hi = r.lo+PERIOD
  parties : ∀ i, PartyOk s.counter s.reserved i (s.party i) (d.cursor i)

def Cluster.returns (s : Cluster ι) (i : ι) (n m : Int) : Cluster ι :=
  { s with
    party := Function.update s.party i
      { s.party i with node := { curValue := n+1, maxCacheValue := m }, call := none }
    returned := ((i,(s.party i).epoch),n) :: s.returned }

def Cluster.reserve (s : Cluster ι) (i : ι) : Cluster ι :=
  { s with
    counter := s.counter+PERIOD
    party := Function.update s.party i { s.party i with call := some (.replied s.counter) }
    reserved := ⟨(i,(s.party i).epoch),s.counter,s.counter+PERIOD⟩ :: s.reserved }

/-- Everything a step can be. A call that fails leaves the fields. -/
inductive Moves (s : Cluster ι) : Event ι → Cluster ι → Prop
  | sent {i} (low : (s.party i).node.low = true) :
      Moves s (.call i) { s with party := Function.update s.party i { s.party i with call := some .sent } }
  | cached {i} (stock : (s.party i).node.curValue+10 ≤ (s.party i).node.maxCacheValue) :
      Moves s (.call i) (s.returns i (s.party i).node.curValue (s.party i).node.maxCacheValue)
  | granted {i} (low : (s.party i).node.low = true) (room : Long.InRange (s.counter+PERIOD)) :
      Moves s (.serve i) (s.reserve i)
  | failed {a i} (orphans : Nat) :
      Moves s a { s with
        party := Function.update s.party i { s.party i with call := none }, orphans := orphans }
  | received {i v} (reply : (s.party i).call = some (.replied v)) :
      Moves s (.receive i) (s.returns i v (v+PERIOD))
  | restarted {i} (orphans : Nat) :
      Moves s (.restart i) { s with
        party := Function.update s.party i { epoch := (s.party i).epoch+1 }, orphans := orphans }
  | stray (orphans : Nat) (room : Long.InRange (s.counter+PERIOD)) :
      Moves s .stray { s with counter := s.counter+PERIOD, orphans := orphans }
  | refused (orphans : Nat) : Moves s .stray { s with orphans := orphans }

omit [DecidableEq ι] in
private theorem PartyOk.mono {c c' : Int} {rs rs' : List (Reservation (ι × Nat) Int)} {i : ι}
    {p : Party} {k : Int} (h : PartyOk c rs i p k) (hc : c ≤ c')
    (hr : ∀ o n, Owned rs o n → Owned rs' o n) : PartyOk c' rs' i p k where
  nonneg := h.nonneg
  ordered := h.ordered
  below := h.below.trans hc
  passed := h.passed.trans hc
  ahead := h.ahead
  own n hl hh := hr _ n (h.own n hl hh)
  waiting := h.waiting
  reply v hv := by
    obtain ⟨hk,h0,ht,ho⟩ := h.reply v hv
    exact ⟨hk,h0,ht.trans hc,fun n hl hh => hr _ n (ho n hl hh)⟩

omit [DecidableEq ι] in
private theorem PartyOk.hangUp {c : Int} {rs : List (Reservation (ι × Nat) Int)} {i : ι}
    {p : Party} {k : Int} (h : PartyOk c rs i p k) : PartyOk c rs i { p with call := none } k :=
  ⟨h.nonneg,h.ordered,h.below,h.passed,h.ahead,h.own,fun hn => absurd rfl hn,
    fun _ hv => nomatch hv⟩

private theorem Matches.update {s : Cluster ι} {d : Dispenser (ι × Nat) ι Int} (h : Matches s d)
    (i : ι) {p : Party} (hp : PartyOk s.counter s.reserved i p (d.cursor i)) (orphans : Nat) :
    Matches { s with party := Function.update s.party i p, orphans := orphans } d := by
  refine ⟨h.ledger,h.issued,h.counter,h.top,?_⟩
  rw [Function.forall_update_iff s.party fun j p => PartyOk s.counter s.reserved j p (d.cursor j)]
  exact ⟨hp,fun j _ => h.parties j⟩

private theorem finish_error (s : Cluster ι) (i : ι) (e : RedisException)
    (hl : (s.party i).node.low = true) :
    s.finish i (.error e) =
      { s with party := Function.update s.party i { s.party i with call := none } } := by
  simp only [Cluster.finish,next_refused hl]

theorem step_moves {s t : Cluster ι} {a : Event ι} {d : Dispenser (ι × Nat) ι Int} (h : Matches s d)
    (hs : step s a = some t) : Moves s a t := by
  have hmax := h.counter.2
  have hlow {i : ι} {c : Call} (hc : (s.party i).call = some c) : (s.party i).node.low = true :=
    (h.parties i).waiting (hc ▸ Option.some_ne_none c)
  cases a with
  | call i =>
    have hp := h.parties i
    simp only [step] at hs
    split at hs
    · cases hs
    split at hs <;> cases hs
    · next hl => exact .sent hl
    · next hl =>
      -- enough is left, so the cached number goes out
      rw [Bool.not_eq_true] at hl
      have h0 := hp.nonneg
      have ht := hp.below
      have hroom := low_false hp.ordered (by omega) hl
      have hnext : toLong ((s.party i).node.curValue+1) = (s.party i).node.curValue+1 :=
        toLong_of_nonneg (by omega) (by omega)
      simp only [Cluster.finish,next_cached hl,hnext]
      exact .cached hroom
  | serve i =>
    simp only [step] at hs
    split at hs
    · next hc =>
      split at hs <;> cases hs
      · next v c hg =>
        obtain ⟨rfl,rfl,hr⟩ := RAtomicLong.getAndAdd_some hg
        exact .granted (hlow hc) hr
      · rw [finish_error s i .overflow (hlow hc)]
        exact .failed s.orphans
    · cases hs
  | receive i =>
    simp only [step] at hs
    split at hs <;> cases hs
    next v hc =>
    obtain ⟨_,h0,ht,_⟩ := (h.parties i).reply v hc
    have hP : PERIOD = 100 := rfl
    have hm : toLong (v+PERIOD) = v+PERIOD := toLong_of_nonneg (by omega) (by omega)
    have hn : toLong (v+1) = v+1 := toLong_of_nonneg (by omega) (by omega)
    simp only [Cluster.finish,next_refill (hlow hc),hm,hn]
    exact .received hc
  | fail i =>
    simp only [step] at hs
    split at hs <;> cases hs
    · next hc =>
      rw [finish_error s i .unavailable (hlow hc)]
      exact .failed _
    · next v hc =>
      rw [finish_error s i .unavailable (hlow hc)]
      exact .failed s.orphans
  | restart i =>
    cases hs
    exact .restarted _
  | stray =>
    simp only [step] at hs
    split at hs
    · split at hs <;> cases hs
      · next v c hg =>
        obtain ⟨_,rfl,hr⟩ := RAtomicLong.getAndAdd_some hg
        exact .stray _ hr
      · exact .refused _
    · cases hs

private theorem Matches.issue {s : Cluster ι} {d : Dispenser (ι × Nat) ι Int} (h : Matches s d)
    (i : ι) {n m : Int} (ahead : d.cursor i ≤ n) (h0 : 0 ≤ n) (hnm : n < m) (hm : m ≤ s.counter)
    (own : ∀ x, n ≤ x → x < m → Owned s.reserved (i,(s.party i).epoch) x) :
    ∃ e, Relation.ReflTransGen (Dispenser.Step Prod.fst) d e ∧ Matches (s.returns i n m) e := by
  refine ⟨_,.single (.issue d (i,(s.party i).epoch) n (n+1) (h.ledger ▸ own n (le_refl _) hnm) ahead
    (by omega)),h.ledger,congrArg _ h.issued,h.counter,h.top,fun j => ?_⟩
  by_cases hj : j = i
  · subst hj
    simp only [Cluster.returns,Function.update_self]
    exact ⟨by dsimp only; omega,by dsimp only; omega,hm,by omega,fun _ => le_refl _,
      fun x hx => own x (by dsimp only at hx; omega),fun hn => absurd rfl hn,fun _ hv => nomatch hv⟩
  · simpa only [Cluster.returns,Function.update_of_ne hj] using h.parties j

private theorem Matches.reserve {s : Cluster ι} {d : Dispenser (ι × Nat) ι Int} (h : Matches s d) (i : ι)
    (hl : (s.party i).node.low = true) (hr : Long.InRange (s.counter+PERIOD)) :
    ∃ e, Relation.ReflTransGen (Dispenser.Step Prod.fst) d e ∧ Matches (s.reserve i) e := by
  have hp := h.parties i
  have hpos : (0 : Int) ≤ PERIOD := by decide
  have h0 := h.counter.1
  refine ⟨_,.single (.reserve d ⟨(i,(s.party i).epoch),s.counter,s.counter+PERIOD⟩
    (h.ledger ▸ fun r hr => (h.top r hr).1)),congrArg _ h.ledger,h.issued,
    ⟨by dsimp only [Cluster.reserve]; omega,hr.2⟩,?_,?_⟩
  · intro r hr
    rcases List.mem_cons.mp hr with rfl | hr
    · exact ⟨le_refl _,rfl⟩
    · obtain ⟨ht,hw⟩ := h.top r hr
      exact ⟨by dsimp only [Cluster.reserve]; omega,hw⟩
  · have hmono (j : ι) : PartyOk (s.counter+PERIOD) (⟨(i,(s.party i).epoch),s.counter,
        s.counter+PERIOD⟩ :: s.reserved) j (s.party j) (d.cursor j) :=
      (h.parties j).mono (by omega) fun _ _ => Owned.mono _
    have hi := hmono i
    apply (Function.forall_update_iff s.party fun j p => PartyOk (s.counter+PERIOD)
      (⟨(i,(s.party i).epoch),s.counter,s.counter+PERIOD⟩ :: s.reserved) j p (d.cursor j)).mpr
    refine ⟨⟨hi.nonneg,hi.ordered,hi.below,hi.passed,hi.ahead,hi.own,fun _ => hl,?_⟩,
      fun j _ => hmono j⟩
    intro v hv
    cases hv
    exact ⟨hp.passed,h0,le_refl _,fun n hn hh => Owned.head ⟨hn,hh⟩⟩

omit [DecidableEq ι] in
private theorem Matches.advance {s : Cluster ι} {d : Dispenser (ι × Nat) ι Int} (h : Matches s d)
    (hr : Long.InRange (s.counter+PERIOD)) (orphans : Nat) :
    Matches { s with counter := s.counter+PERIOD, orphans := orphans } d := by
  have hP : PERIOD = 100 := rfl
  refine ⟨h.ledger,h.issued,⟨by have := h.counter.1; dsimp only; omega,hr.2⟩,fun r hr => ?_,fun j => ?_⟩
  · obtain ⟨ht,hw⟩ := h.top r hr
    exact ⟨by dsimp only; omega,hw⟩
  · exact (h.parties j).mono (by dsimp only; omega) fun _ _ ho => ho

omit [DecidableEq ι] in
private theorem PartyOk.restarted {c : Int} {rs : List (Reservation (ι × Nat) Int)} {i : ι} {p : Party}
    {k : Int}
    (h : PartyOk c rs i p k) (h0 : 0 ≤ c) (epoch : Nat) : PartyOk c rs i { epoch := epoch } k :=
  ⟨le_refl _,le_refl _,h0,h.passed,fun hlt => absurd hlt (lt_irrefl _),
    fun _ hl hh => absurd (hl.trans_lt hh) (lt_irrefl _),fun hn => absurd rfl hn,fun _ hv => nomatch hv⟩

/-- Each event of the cluster is matched by at most one abstract step. -/
private theorem step_matches (s : Cluster ι) (a : Event ι) (t : Cluster ι)
    (d : Dispenser (ι × Nat) ι Int) (h : Matches s d) (hs : step s a = some t) :
    ∃ e, Relation.ReflTransGen (Dispenser.Step Prod.fst) d e ∧ Matches t e := by
  cases step_moves h hs with
  | @sent i hl =>
    have hp := h.parties i
    exact ⟨d,.refl,h.update i (p := { s.party i with call := some .sent })
      ⟨hp.nonneg,hp.ordered,hp.below,hp.passed,hp.ahead,hp.own,fun _ => hl,fun _ hv => nomatch hv⟩ s.orphans⟩
  | @cached i hstock =>
    have hp := h.parties i
    exact h.issue i (hp.ahead (by omega)) hp.nonneg (by omega) hp.below hp.own
  | @granted i hl hr => exact h.reserve i hl hr
  | @failed _ i orphans => exact ⟨d,.refl,h.update i (h.parties i).hangUp orphans⟩
  | @received i v hc =>
    obtain ⟨hk,h0,ht,ho⟩ := (h.parties i).reply v hc
    have hP : PERIOD = 100 := rfl
    exact h.issue i hk h0 (by omega) ht ho
  | @restarted i orphans => exact ⟨d,.refl,h.update i ((h.parties i).restarted h.counter.1 _) orphans⟩
  | stray orphans hr => exact ⟨d,.refl,h.advance hr orphans⟩
  | refused _ => exact ⟨d,.refl,h.ledger,h.issued,h.counter,h.top,h.parties⟩

omit [DecidableEq ι] in
private theorem boot_matches {start : Int} (h0 : 0 ≤ start) (hmax : start ≤ Long.MAX_VALUE) :
    Matches (boot start : Cluster ι) ⟨[],fun _ => 0,[]⟩ where
  ledger := rfl
  issued := rfl
  counter := ⟨h0,hmax⟩
  top := nofun
  parties _ := ⟨le_refl _,le_refl _,h0,h0,fun h => absurd h (lt_irrefl _),
    fun _ hl hh => absurd (hl.trans_lt hh) (lt_irrefl _),fun h => absurd rfl h,nofun⟩

theorem refines_dispenser {start : Int} (h0 : 0 ≤ start) (hmax : start ≤ Long.MAX_VALUE)
    {s : Cluster ι} (h : Reachable step (boot start) s) :
    ∃ d, Relation.ReflTransGen (Dispenser.Step Prod.fst) ⟨[],fun _ => 0,[]⟩ d ∧ Matches s d := by
  obtain ⟨as,ha⟩ := h
  have hok : StepsMeet step (fun _ _ => True) (boot start : Cluster ι) as := stepsMeet_true _ _
  exact exec_simulates (fun s a t d hm _ => step_matches s a t d hm) (boot_matches h0 hmax) hok ha

/-- Segment ownership over every schedule of calls, lost answers, late requests and
restarts: each returned number lies in one granted segment and that one is the
incarnation's own, nothing is returned twice, an instance counts upwards across its
restarts, and a call that throws leaves both fields. -/
theorem segment_ownership (start : Int) (h0 : 0 ≤ start) (hmax : start ≤ Long.MAX_VALUE)
    (s : Cluster ι) (h : Reachable step (boot start) s) :
    (∀ o n, (o,n) ∈ s.returned → ∃ r ∈ s.reserved, r.owner = o ∧ r.hi = r.lo+PERIOD ∧ r.Holds n ∧
      ∀ q ∈ s.reserved, q.Holds n → q = r) ∧
    (s.returned.map Prod.snd).Nodup ∧
    (s.returned.Pairwise fun newer older => newer.1.1 = older.1.1 → older.2 < newer.2) ∧
    ∀ i reply e q, (s.party i).node.next reply = (.error e,q) → q = (s.party i).node := by
  obtain ⟨d,hd,hm⟩ := refines_dispenser h0 hmax h
  have hs := Dispenser.sound_run hd (Dispenser.sound_empty _)
  refine ⟨?_,?_,?_,fun i reply e q he => next_error he⟩
  · intro o n hn
    obtain ⟨r,hr,ho,hn,hu⟩ := hs.private_segment (hm.issued ▸ hn)
    rw [hm.ledger] at hr hu
    exact ⟨r,hr,ho,(hm.top r hr).2,hn,hu⟩
  · exact hm.issued ▸ hs.nodup
  · exact hm.issued ▸ hs.increasing

/-- Two instances; the first answer to instance 1 is lost after Redis counted it, and
instance 0 restarts inside its segment. -/
theorem segment_ownership_lost_reply :
    ∃ s, exec step (boot 7 : Cluster Nat) [.call 0,.serve 0,.call 1,.serve 1,.receive 0,.fail 1,
        .call 0,.restart 0,.call 1,.call 0,.serve 0,.receive 0,.serve 1,.receive 1] = some s ∧
      s.returned = [((1,0),307),((0,1),207),((0,0),8),((0,0),7)] ∧
      (s.returned.map Prod.snd).Nodup := by
  have h : (exec step (boot 7 : Cluster Nat) [.call 0,.serve 0,.call 1,.serve 1,.receive 0,.fail 1,
      .call 0,.restart 0,.call 1,.call 0,.serve 0,.receive 0,.serve 1,.receive 1]).map
        Cluster.returned = some [((1,0),307),((0,1),207),((0,0),8),((0,0),7)] := by decide
  obtain ⟨s,hs,hr⟩ := Option.map_eq_some_iff.mp h
  exact ⟨s,hs,hr,(segment_ownership 7 (by decide) (by decide) s ⟨_,hs⟩).2.1⟩

end NumberCacheSequence
end CloudWeb.Sequence
