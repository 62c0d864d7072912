import CloudWeb.Foundation.Execution
import CloudWeb.Lock.RedisLock
import CloudWeb.Lock.ZookeeperLock
import Mathlib.Logic.Nontrivial.Basic

/-! The automatic release `IDistributedLock` documents, for both implementations over
explicit time. One hands the timeout to its back end as a lease, the other as a
waiting time. -/
namespace CloudWeb.Lock
open Foundation

inductive Implementation
  | redisLock
  | zookeeperLock
  deriving DecidableEq, Repr

namespace AutomaticRelease

/-- How the back end's call ends. Only Curator's gives up waiting. -/
inductive Outcome
  | acquired
  | timedOut
  | failed
  deriving DecidableEq, Repr

/-- Whether the entry point reports success. -/
def succeeds (e : Entry) : Implementation → Outcome → Bool
  | .redisLock,.acquired => RedisLock.succeeds e (.ok ())
  | .redisLock,_ => RedisLock.succeeds e (.error .unavailable)
  | .zookeeperLock,.acquired => ZookeeperLock.succeeds e (.ok true)
  | .zookeeperLock,.timedOut => ZookeeperLock.succeeds e (.ok false)
  | .zookeeperLock,.failed => ZookeeperLock.succeeds e (.error .connection)

/-- Who has the lock at the back end, and until when unless it is released. -/
structure Hold (ι : Type*) where
  owner : ι
  again : Nat := 0
  expiry : Option Int
  deriving DecidableEq, Repr

/-- `last` is the time and the timeout of a caller's success if that was its last call. -/
structure World (ι : Type*) where
  now : Int := 0
  hold : Option (Hold ι) := none
  connected : ι → Bool := fun _ => true
  pending : ι → Option Entry := fun _ => none
  last : ι → Option (Int × Int) := fun _ => none

variable {ι : Type*} [DecidableEq ι]

/-- The hold that is in force: one past its expiry is none. -/
def World.current (w : World ι) : Option (Hold ι) :=
  w.hold.filter fun h => h.expiry.all fun e => decide (w.now < e)

/-- The back end would let `i` have the lock now. -/
def World.Grants (w : World ι) (i : ι) : Prop := ∀ h ∈ w.current, h.owner = i

instance (w : World ι) (i : ι) : Decidable (w.Grants i) :=
  inferInstanceAs (Decidable (∀ h ∈ w.current, _))

/-- When a hold taken now for `lease` ends. Redisson keeps one of -1 until it is released. -/
def World.leaseEnd (w : World ι) (lease : Int) : Option Int :=
  if lease = -1 then none else some (w.now+lease)

/-- The hold after a grant. Taking a Redis lock again renews its lease, unless it is kept
until release. A Curator mutex knows no lease. -/
def World.grant (w : World ι) (i : ι) (e : Entry) : Implementation → Hold ι
  | .redisLock =>
    match w.current with
    | none => { owner := i, expiry := w.leaseEnd (RedisLock.leaseTime e) }
    | some h => { owner := i, again := h.again+1,
                  expiry := h.expiry.bind fun _ => w.leaseEnd (RedisLock.leaseTime e) }
  | .zookeeperLock =>
    match w.current with
    | none => { owner := i, expiry := none }
    | some h => { owner := i, again := h.again+1, expiry := none }

/-- `unlock` says what is left of the lease when the lock stays taken. `disconnect` ends
a Curator session, and a Redis client. -/
inductive Label (ι : Type*)
  | call (i : ι) (e : Entry)
  | ends (i : ι) (o : Outcome)
  | unlock (i : ι) (rest : Nat)
  | elapse (d : Nat)
  | disconnect (i : ι)
  deriving DecidableEq, Repr

def World.answer (w : World ι) (impl : Implementation) (i : ι) (e : Entry) (o : Outcome) : World ι :=
  { w with
    pending := Function.update w.pending i none
    last := Function.update w.last i
      (if succeeds e impl o then some (w.now,e.timeout) else none) }

def step (impl : Implementation) (w : World ι) : Label ι → Option (World ι)
  | .call i e =>
    if w.connected i = true ∧ w.pending i = none then
      some { w with
        pending := Function.update w.pending i (some e)
        last := Function.update w.last i none }
    else none
  | .ends i o =>
    match w.pending i with
    | none => none
    | some e =>
      match o with
      | .acquired =>
        if w.Grants i then
          some (World.answer { w with hold := some (w.grant i e impl) } impl i e .acquired)
        else none
      | .timedOut =>
        if impl = .zookeeperLock ∧ ZookeeperLock.waitingTime e ≠ none ∧ ∀ h ∈ w.hold, h.owner ≠ i then
          some (w.answer impl i e .timedOut)
        else none
      | .failed => some (w.answer impl i e .failed)
  | .unlock i rest =>
    if w.connected i = true ∧ w.pending i = none then
      let w := { w with last := Function.update w.last i none }
      match w.current with
      | some ⟨j,0,_⟩ => if j = i then some { w with hold := none } else some w
      | some ⟨j,n+1,expiry⟩ =>
        if j = i then some { w with hold := some ⟨j,n,expiry.map fun _ => w.now+rest⟩ } else some w
      | none => some w
    else none
  | .elapse d => some { w with now := w.now+d }
  | .disconnect i =>
    some { w with
      connected := Function.update w.connected i false
      pending := Function.update w.pending i none
      hold := if impl = .zookeeperLock then w.hold.filter fun h => decide (h.owner ≠ i) else w.hold }

def World.forget (w : World ι) (i : ι) : World ι := { w with last := Function.update w.last i none }

inductive Moves (impl : Implementation) (w : World ι) : Label ι → World ι → Prop
  | called {i e} : Moves impl w (.call i e)
      { w.forget i with pending := Function.update w.pending i (some e) }
  | acquired {i e} (waits : w.pending i = some e) (grants : w.Grants i) :
      Moves impl w (.ends i .acquired)
        (World.answer { w with hold := some (w.grant i e impl) } impl i e .acquired)
  | timedOut {i e} (waits : w.pending i = some e) (curator : impl = .zookeeperLock)
      (limit : ZookeeperLock.waitingTime e ≠ none) :
      Moves impl w (.ends i .timedOut) (w.answer impl i e .timedOut)
  | failed {i e} (waits : w.pending i = some e) :
      Moves impl w (.ends i .failed) (w.answer impl i e .failed)
  | refused {i rest} : Moves impl w (.unlock i rest) (w.forget i)
  | released {i rest expiry} (own : ⟨i,0,expiry⟩ ∈ w.current) :
      Moves impl w (.unlock i rest) { w.forget i with hold := none }
  | nested {i rest n expiry} (own : ⟨i,n+1,expiry⟩ ∈ w.current) :
      Moves impl w (.unlock i rest)
        { w.forget i with hold := some ⟨i,n,expiry.map fun _ => w.now+rest⟩ }
  | elapsed {d : Nat} : Moves impl w (.elapse d) { w with now := w.now+d }
  | disconnected {i hold}
      (session : hold = w.hold ∨ hold = w.hold.filter fun h => decide (h.owner ≠ i)) :
      Moves impl w (.disconnect i)
        { w with connected := Function.update w.connected i false,
                 pending := Function.update w.pending i none, hold := hold }

theorem step_moves {impl : Implementation} {w w' : World ι} {a : Label ι} (hs : step impl w a = some w') :
    Moves impl w a w' := by
  cases a with
  | call i e =>
    simp only [step] at hs
    split at hs <;> cases hs
    exact .called
  | ends i o =>
    simp only [step] at hs
    split at hs
    · cases hs
    next e hp =>
    cases o with
    | acquired =>
      simp only at hs
      split at hs <;> cases hs
      next hg => exact .acquired hp hg
    | timedOut =>
      simp only at hs
      split at hs <;> cases hs
      next hc => exact .timedOut hp hc.1 hc.2.1
    | failed =>
      cases hs
      exact .failed hp
  | unlock i rest =>
    simp only [step] at hs
    split at hs
    · split at hs
      · next hc =>
        split at hs <;> cases hs
        · next hji =>
          subst hji
          exact .released hc
        · exact .refused
      · next hc =>
        split at hs <;> cases hs
        · next hji =>
          subst hji
          exact .nested hc
        · exact .refused
      · cases hs
        exact .refused
    · cases hs
  | elapse d =>
    cases hs
    exact .elapsed
  | disconnect i =>
    cases hs
    refine .disconnected ?_
    split
    · exact .inr rfl
    · exact .inl rfl

/-- Somebody other than `i` could have the lock now. -/
def FreeFor (w : World ι) (i : ι) : Prop := ∃ k, k ≠ i ∧ w.Grants k

/-- The documented release: a connected caller whose last call succeeded longer ago than
its timeout does not keep the others out. `uses` are the calls that are made. -/
def AutoReleases (ι : Type*) [DecidableEq ι] (impl : Implementation) (uses : Entry → Prop) : Prop :=
  ∀ (as : List (Label ι)) (w : World ι), (∀ i e, .call i e ∈ as → uses e) →
    exec (step impl) {} as = some w →
      ∀ i t timeout, w.connected i = true → w.last i = some (t,timeout) → t+timeout < w.now →
        FreeFor w i

/-- What runs of `RedisLock` without a timeout of -1 keep: a hold has an expiry, which is
the end of its owner's last success. -/
structure Leased (w : World ι) : Prop where
  entries : ∀ i e, w.pending i = some e → e.timeout ≠ -1
  lease : ∀ h ∈ w.hold, ∃ x, h.expiry = some x ∧ ∀ t timeout, w.last h.owner = some (t,timeout) →
    x = t+timeout

section Redis
variable {w w' : World ι} {i : ι}

omit [DecidableEq ι] in
private theorem hold_of_current {h : Hold ι} (hc : h ∈ w.current) : h ∈ w.hold :=
  (Option.filter_eq_some_iff.mp hc).1

theorem leaseTime_eq (e : Entry) : RedisLock.leaseTime e = e.timeout := by
  cases e <;> rfl

omit [DecidableEq ι] in
private theorem grant_redis {e : Entry} (h : Leased w) (he : e.timeout ≠ -1) :
    (w.grant i e .redisLock).owner = i ∧ (w.grant i e .redisLock).expiry = some (w.now+e.timeout) := by
  have hend : w.leaseEnd (RedisLock.leaseTime e) = some (w.now+e.timeout) := by
    rw [leaseTime_eq,World.leaseEnd,if_neg he]
  cases hc : w.current with
  | none =>
    exact ⟨by simp only [World.grant,hc],by simp only [World.grant,hc,hend]⟩
  | some g =>
    obtain ⟨x,hx,_⟩ := h.lease g (hold_of_current hc)
    exact ⟨by simp only [World.grant,hc],by simp only [World.grant,hc,hend,hx,Option.bind_some]⟩

private theorem Leased.forget (h : Leased w) (i : ι) : Leased (w.forget i) := by
  refine ⟨h.entries,fun g hg => ?_⟩
  obtain ⟨x,hx,hl⟩ := h.lease g hg
  refine ⟨x,hx,fun t timeout ht => ?_⟩
  simp only [World.forget] at ht
  by_cases ho : g.owner = i
  · rw [ho,Function.update_self] at ht
    cases ht
  · rw [Function.update_of_ne ho] at ht
    exact hl t timeout ht

private theorem Leased.pend (h : Leased w) (i : ι) {p : Option Entry}
    (hp : ∀ e, p = some e → e.timeout ≠ -1) :
    Leased { w with pending := Function.update w.pending i p } := by
  refine ⟨?_,h.lease⟩
  apply (Function.forall_update_iff w.pending fun _ q => ∀ e, q = some e → e.timeout ≠ -1).mpr
  exact ⟨hp,fun j _ => h.entries j⟩

private theorem Leased.clear (h : Leased w) (i : ι) :
    Leased { w with pending := Function.update w.pending i none } := h.pend i fun _ he => nomatch he

omit [DecidableEq ι] in
private theorem Leased.hold (h : Leased w) {hold : Option (Hold ι)}
    (hh : ∀ g ∈ hold, ∃ x, g.expiry = some x ∧ ∀ t timeout, w.last g.owner = some (t,timeout) → x = t+timeout) :
    Leased { w with hold := hold } := ⟨h.entries,hh⟩

theorem step_leased (w : World ι) (a : Label ι) (w' : World ι) (h : Leased w)
    (hok : ∀ i e, a = .call i e → e.timeout ≠ -1) (hs : step .redisLock w a = some w') :
    Leased w' := by
  cases step_moves hs with
  | @called i e =>
    refine (h.forget i).pend i fun e' he => ?_
    cases he
    exact hok i e rfl
  | @acquired i e hp _ =>
    obtain ⟨howner,hexp⟩ := grant_redis (i := i) h (h.entries i e hp)
    have hs : succeeds e .redisLock .acquired = true := by cases e <;> rfl
    refine ⟨(h.clear i).entries,fun g hg => ?_⟩
    obtain rfl : w.grant i e .redisLock = g := Option.some.inj hg
    refine ⟨_,hexp,fun t timeout ht => ?_⟩
    simp only [World.answer,howner,Function.update_self,hs,if_true,Option.some.injEq,Prod.mk.injEq] at ht
    rw [← ht.1,← ht.2]
  | timedOut _ hcurator _ => cases hcurator
  | @failed i e _ =>
    have hs : succeeds e .redisLock .failed = false := by cases e <;> rfl
    simp only [World.answer,hs,Bool.false_eq_true,if_false]
    exact (h.forget i).clear i
  | @refused i _ => exact h.forget i
  | @released i _ _ _ => exact (h.forget i).hold fun g hg => nomatch hg
  | @nested i rest n expiry hown =>
    obtain ⟨x,hx,_⟩ := h.lease _ (hold_of_current hown)
    obtain rfl : expiry = some x := hx
    refine (h.forget i).hold fun g hg => ?_
    obtain rfl := Option.some.inj hg
    refine ⟨_,rfl,fun t timeout ht => ?_⟩
    simp only [World.forget,Function.update_self] at ht
    cases ht
  | elapsed => exact ⟨h.entries,h.lease⟩
  | @disconnected i _ hsession =>
    refine ⟨(h.clear i).entries,fun g hg => h.lease g ?_⟩
    rcases hsession with rfl | rfl
    · exact hg
    · exact (Option.filter_eq_some_iff.mp hg).1

omit [DecidableEq ι] in
private theorem Leased.freeFor [Nontrivial ι] (h : Leased w) {t timeout : Int}
    (hl : w.last i = some (t,timeout)) (hlt : t+timeout < w.now) : FreeFor w i := by
  cases hc : w.current with
  | none =>
    obtain ⟨k,hk⟩ := exists_ne i
    exact ⟨k,hk,fun g hg => by rw [hc] at hg; cases hg⟩
  | some g =>
    obtain ⟨hg,hforce⟩ := Option.filter_eq_some_iff.mp hc
    refine ⟨g.owner,?_,fun g' hg' => ?_⟩
    · rintro rfl
      obtain ⟨x,hx,hlast⟩ := h.lease g hg
      have hxt := hlast t timeout hl
      simp only [hx,Option.all_some,decide_eq_true_eq] at hforce
      omega
    · rw [hc] at hg'
      rw [Option.some.inj hg']

end Redis

def Idle (w : World ι) : Prop := ∀ i, w.pending i = none ∧ w.last i = none

private theorem step_idle {impl : Implementation} (w : World ι) (a : Label ι) (w' : World ι) (h : Idle w)
    (hok : ∀ i e, a ≠ .call i e) (hs : step impl w a = some w') : Idle w' := by
  have hnone (i : ι) {β : Type} {f : ι → Option β} (hf : ∀ j, f j = none) (j : ι) :
      Function.update f i none j = none := by
    revert j
    exact (Function.forall_update_iff f fun _ x => x = none).mpr ⟨rfl,fun j _ => hf j⟩
  have hquiet {i : ι} {e : Entry} (hp : w.pending i = some e) : False := by
    rw [(h i).1] at hp
    cases hp
  have hforget (i : ι) (j : ι) : w.pending j = none ∧ Function.update w.last i none j = none :=
    ⟨(h j).1,hnone i (fun k => (h k).2) j⟩
  cases step_moves hs with
  | @called i e => exact absurd rfl (hok i e)
  | acquired hp _ => exact (hquiet hp).elim
  | timedOut hp _ _ => exact (hquiet hp).elim
  | failed hp => exact (hquiet hp).elim
  | @refused i _ => exact hforget i
  | @released i _ _ _ => exact hforget i
  | @nested i _ _ _ _ => exact hforget i
  | elapsed => exact h
  | @disconnected i _ _ => exact fun j => ⟨hnone i (fun k => (h k).1) j,(h j).2⟩

section Kept
variable {e : Entry} {impl : Implementation}

private theorem exec_take (i : ι) (e : Entry) (d : Nat) (impl : Implementation) :
    exec (step impl) ({} : World ι) [.call i e,.ends i .acquired,.elapse d] =
      some { now := d, hold := some (World.grant {} i e impl),
             pending := Function.update (Function.update (fun _ => none) i (some e)) i none,
             last := Function.update (Function.update (fun _ => none) i none) i (some (0,e.timeout)) } := by
  have hs : succeeds e impl .acquired = true := by cases e <;> cases impl <;> rfl
  have hg (p : ι → Option Entry) (l : ι → Option (Int × Int)) :
      ({ pending := p, last := l } : World ι).Grants i := fun h hh => nomatch hh
  simp [exec_cons,step,World.answer,hs,hg,World.grant,World.current,World.leaseEnd]

private theorem not_autoReleases [Nontrivial ι] {uses : Entry → Prop} (he : uses e)
    (hkept : ∀ i : ι, World.grant {} i e impl = { owner := i, expiry := none }) :
    ¬ AutoReleases ι impl uses := by
  intro h
  obtain ⟨i,_⟩ := exists_pair_ne ι
  -- called at 0, and looked at when the timeout is over
  have hlast := h _ _ ?_ (exec_take i e (e.timeout.toNat+1) impl) i 0 e.timeout rfl
    (Function.update_self ..) (by dsimp only; omega)
  · obtain ⟨k,hk,hg⟩ := hlast
    refine hk (hg ⟨i,0,none⟩ ?_).symm
    simp only [World.current,hkept]
    rfl
  · intro j e' hj
    simp only [List.mem_cons,Label.call.injEq,reduceCtorEq,List.not_mem_nil,or_false] at hj
    exact hj.2 ▸ he

end Kept

/-- The documented release, for any set of calls that are made: it is `RedisLock`'s, and
there it takes timeouts other than -1. -/
theorem autoReleases_iff (ι : Type*) [DecidableEq ι] [Nontrivial ι] (impl : Implementation)
    (uses : Entry → Prop) :
    AutoReleases ι impl uses ↔ ∀ e, uses e → impl = .redisLock ∧ e.timeout ≠ -1 := by
  constructor
  · intro h e he
    by_contra hno
    refine not_autoReleases he (fun i => ?_) h
    cases impl with
    | redisLock =>
      have ht : e.timeout = -1 := by
        by_contra ht
        exact hno ⟨rfl,ht⟩
      simp only [World.grant,World.leaseEnd,leaseTime_eq,ht,if_true]
      rfl
    | zookeeperLock => rfl
  · intro h as w huses hw i t timeout _ hlast hlt
    cases impl with
    | redisLock =>
      have hok : ∀ a ∈ as, ∀ i e, a = .call i e → e.timeout ≠ -1 :=
        fun a ha i e hae => (h e (huses i e (hae ▸ ha))).2
      have hinit : Leased ({} : World ι) := ⟨fun _ _ h => (nomatch h),fun _ h => (nomatch h)⟩
      exact (exec_invariant step_leased hinit (stepsMeet_of_forall hok _) hw).freeFor hlast hlt
    | zookeeperLock =>
      have hok : ∀ a ∈ as, ∀ i e, a ≠ .call i e :=
        fun a ha i e hae => nomatch (h e (huses i e (hae ▸ ha))).1
      have hidle := exec_invariant step_idle (fun _ => ⟨rfl,rfl⟩) (stepsMeet_of_forall hok _) hw
      rw [(hidle i).2] at hlast
      cases hlast

theorem redis_tryLock_ten_releases : AutoReleases Bool .redisLock fun e => e = .tryLockFor 10 := by
  refine (autoReleases_iff Bool .redisLock _).mpr ?_
  rintro e rfl
  decide

theorem curator_lock_outlives_timeout :
    ∃ w : World Bool, exec (step .zookeeperLock) {} [.call false .lock,.ends false .acquired,
        .elapse 3001] = some w ∧
      w.connected false = true ∧ w.last false = some (0,DEFAULT_TIMEOUT) ∧
      0+DEFAULT_TIMEOUT < w.now ∧ ¬ FreeFor w false := by
  refine ⟨_,rfl,rfl,rfl,by decide,?_⟩
  rintro ⟨k,hk,hg⟩
  exact hk (hg ⟨false,0,none⟩ rfl).symm

end AutomaticRelease
end CloudWeb.Lock
