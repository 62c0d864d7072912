import CloudWeb.Foundation.Execution
import CloudWeb.Foundation.ReentrantMutex
import CloudWeb.Lock.IDistributedLock

/-! `ZookeeperLock` over Curator's `InterProcessMutex`, for any number of callers. What
a caller may rely on is the answer it got, and `tryLock` drops half of Curator's. -/
namespace CloudWeb.Lock
open Foundation

inductive CuratorException
  | connection
  | notOwner
  deriving DecidableEq, Repr

namespace ZookeeperLock

/-- `lock()`, given how `acquire()` ended. -/
def lock (acquired : Except CuratorException Unit) :
    Except (DistributedLockException CuratorException) Unit :=
  match acquired with
  | .ok () => .ok ()
  | .error e => .error ⟨e⟩

/-- The private `lock(timeout)`: what `acquire(timeout, unit)` returns is not looked at. -/
def lockFor (acquired : Except CuratorException Bool) :
    Except (DistributedLockException CuratorException) Unit :=
  match acquired with
  | .ok _ => .ok ()
  | .error e => .error ⟨e⟩

def tryLock (acquired : Except CuratorException Bool) : Bool :=
  match lockFor acquired with
  | .ok () => true
  | .error _ => false

def tryLockFor (acquired : Except CuratorException Bool) : Bool :=
  match lockFor acquired with
  | .ok () => true
  | .error _ => false

def unlock (released : Except CuratorException Unit) :
    Except (DistributedLockException CuratorException) Unit :=
  match released with
  | .ok () => .ok ()
  | .error e => .error ⟨e⟩

/-- The time `acquire` is given; `lock()` calls the one without. -/
def waitingTime : Entry → Option Int
  | .lock => none
  | .tryLock => some DEFAULT_TIMEOUT
  | .tryLockFor timeout => some timeout

/-- Whether an entry point reports success, given how its `acquire` ended. -/
def succeeds (e : Entry) (acquired : Except CuratorException Bool) : Bool :=
  match e with
  | .lock => (lock (acquired.map fun _ => ())).isOk
  | .tryLock => tryLock acquired
  | .tryLockFor _ => tryLockFor acquired

/-! ## Callers of one lock name -/

/-- `pending` is the call a caller waits in, `held` the successes it was told of and has
not unlocked. -/
structure System (ι : Type*) where
  mutex : ReentrantMutex ι := .free
  pending : ι → Option Entry := fun _ => none
  held : ι → Nat := fun _ => 0

/-- A call, the three ways its `acquire` can end, and `unlock()`. -/
inductive Label (ι : Type*)
  | call (i : ι) (e : Entry)
  | acquired (i : ι)
  | timedOut (i : ι)
  | failed (i : ι)
  | unlock (i : ι)
  deriving DecidableEq, Repr

variable {ι : Type*} [DecidableEq ι]

def System.answer (s : System ι) (i : ι) (e : Entry) (acquired : Except CuratorException Bool) :
    System ι :=
  { s with
    pending := Function.update s.pending i none
    held := if succeeds e acquired then Function.update s.held i (s.held i + 1) else s.held }

/-- An `acquire` with a waiting time may give up at any moment at which the caller does
not own the mutex. -/
def step (s : System ι) : Label ι → Option (System ι)
  | .call i e =>
    match s.pending i with
    | none => some { s with pending := Function.update s.pending i (some e) }
    | some _ => none
  | .acquired i =>
    match s.pending i, s.mutex.acquire i with
    | some e, some m => some (System.answer { s with mutex := m } i e (.ok true))
    | _, _ => none
  | .timedOut i =>
    match s.pending i with
    | some e =>
      if waitingTime e ≠ none ∧ s.mutex.count i = 0 then some (s.answer i e (.ok false)) else none
    | none => none
  | .failed i =>
    match s.pending i with
    | some e => some (s.answer i e (.error .connection))
    | none => none
  | .unlock i =>
    match s.pending i with
    | some _ => none
    | none =>
      let (released,m) : Except CuratorException Unit × ReentrantMutex ι :=
        match s.mutex.release i with
        | some m => (.ok (),m)
        | none => (.error .notOwner,s.mutex)
      match unlock released with
      | .ok () => some { s with mutex := m, held := Function.update s.held i (s.held i - 1) }
      | .error _ => some { s with mutex := m }

inductive Moves (s : System ι) : Label ι → System ι → Prop
  | called {i e} (free : s.pending i = none) :
      Moves s (.call i e) { s with pending := Function.update s.pending i (some e) }
  | acquired {i e m} (waits : s.pending i = some e) (grant : s.mutex.acquire i = some m) :
      Moves s (.acquired i) (System.answer { s with mutex := m } i e (.ok true))
  | timedOut {i e} (waits : s.pending i = some e) (limit : waitingTime e ≠ none)
      (foreign : s.mutex.count i = 0) : Moves s (.timedOut i) (s.answer i e (.ok false))
  | failed {i e} (waits : s.pending i = some e) : Moves s (.failed i) (s.answer i e (.error .connection))
  | unlocked {i m} (free : s.pending i = none) (released : s.mutex.release i = some m) :
      Moves s (.unlock i) { s with mutex := m, held := Function.update s.held i (s.held i - 1) }
  | refused {i} (free : s.pending i = none) (released : s.mutex.release i = none) : Moves s (.unlock i) s

theorem step_moves {s t : System ι} {a : Label ι} (hs : step s a = some t) : Moves s a t := by
  cases a with
  | call i e =>
    simp only [step] at hs
    split at hs <;> cases hs
    next hp => exact .called hp
  | acquired i =>
    simp only [step] at hs
    split at hs <;> cases hs
    next hp hm => exact .acquired hp hm
  | timedOut i =>
    simp only [step] at hs
    split at hs
    · next hp =>
      split at hs <;> cases hs
      next hc => exact .timedOut hp hc.1 hc.2
    · cases hs
  | failed i =>
    simp only [step] at hs
    split at hs <;> cases hs
    next hp => exact .failed hp
  | unlock i =>
    simp only [step] at hs
    split at hs
    · cases hs
    next hp =>
    cases hm : s.mutex.release i with
    | none =>
      simp only [hm,unlock] at hs
      cases hs
      exact .refused hp hm
    | some m =>
      simp only [hm,unlock] at hs
      cases hs
      exact .unlocked hp hm

/-- Whoever was told of a success owns the mutex, and no two callers were. -/
def Exclusive (s : System ι) : Prop :=
  (∀ i, 0 < s.held i → 0 < s.mutex.count i) ∧ ∀ i j, 0 < s.held i → 0 < s.held j → i = j

def UnlockOwned (s : System ι) : Label ι → Prop
  | .unlock i => 0 < s.held i → ∃ m, s.mutex.release i = some m
  | _ => True

/-- What callers were told is what the mutex counts. -/
def Told (s : System ι) : Prop := ∀ i, s.held i = s.mutex.count i

section Runs
variable {s t : System ι}

private theorem Told.exclusive (h : Told s) : Exclusive s := by
  refine ⟨fun i hi => h i ▸ hi,fun i j hi hj => ?_⟩
  rw [h] at hi hj
  exact ReentrantMutex.owner_unique hi hj

private theorem Told.unlockOwned (h : Told s) (a : Label ι) : UnlockOwned s a := by
  cases a with
  | unlock i => exact fun hi => ReentrantMutex.release_of_owner (h i ▸ hi)
  | call | acquired | timedOut | failed => trivial

theorem answer_held {i : ι} {e : Entry} {r : Except CuratorException Bool} (j : ι) :
    (s.answer i e r).held j =
      if succeeds e r = true ∧ j = i then s.held i + 1 else s.held j := by
  unfold System.answer
  by_cases hr : succeeds e r = true
  · by_cases hj : j = i
    · subst hj
      simp only [hr,if_true,Function.update_self,and_self]
    · simp only [hr,if_true,Function.update_of_ne hj,hj,and_false,if_false]
  · simp only [hr,Bool.false_eq_true,false_and,if_false]

theorem succeeds_ok (e : Entry) (b : Bool) : succeeds e (.ok b) = true := by
  cases e <;> rfl

private theorem succeeds_error (e : Entry) (c : CuratorException) : succeeds e (.error c) = false := by
  cases e <;> rfl

/-- A success told and an acquisition come and go together, but for an `acquire` that timed out. -/
theorem Moves.told {a : Label ι} (h : Moves s a t) (j : ι) :
    (t.held j = s.held j ∧ t.mutex.count j = s.mutex.count j) ∨
    (t.held j = s.held j+1 ∧ t.mutex.count j = s.mutex.count j+1) ∨
    (a = .timedOut j ∧ t.held j = s.held j+1 ∧ t.mutex.count j = s.mutex.count j) ∨
    (t.held j = s.held j-1 ∧ s.mutex.count j = t.mutex.count j+1) := by
  cases h with
  | called _ => exact .inl ⟨rfl,rfl⟩
  | @acquired i e m _ hm =>
    obtain ⟨hself,hother⟩ := ReentrantMutex.acquire_count hm
    rw [answer_held]
    by_cases hj : j = i
    · subst hj
      exact .inr (.inl ⟨if_pos ⟨succeeds_ok e true,rfl⟩,hself⟩)
    · exact .inl ⟨if_neg fun hc => hj hc.2,hother j hj⟩
  | @timedOut i e _ _ _ =>
    rw [answer_held]
    by_cases hj : j = i
    · subst hj
      exact .inr (.inr (.inl ⟨rfl,if_pos ⟨succeeds_ok e false,rfl⟩,rfl⟩))
    · exact .inl ⟨if_neg fun hc => hj hc.2,rfl⟩
  | @failed i e _ =>
    rw [answer_held,succeeds_error]
    exact .inl ⟨if_neg fun hc => Bool.false_ne_true hc.1,rfl⟩
  | @unlocked i m _ hm =>
    obtain ⟨hself,hother⟩ := ReentrantMutex.release_count hm
    by_cases hj : j = i
    · subst hj
      exact .inr (.inr (.inr ⟨Function.update_self ..,hself⟩))
    · exact .inl ⟨Function.update_of_ne hj ..,hother j hj⟩
  | refused _ _ => exact .inl ⟨rfl,rfl⟩

private theorem step_told (s : System ι) (a : Label ι) (t : System ι) (h : Told s)
    (hok : ∀ i, a ≠ .timedOut i) (hs : step s a = some t) : Told t := by
  intro j
  have hj := h j
  rcases (step_moves hs).told j with ⟨hh,hc⟩ | ⟨hh,hc⟩ | ⟨ha,_⟩ | ⟨hh,hc⟩
  · omega
  · omega
  · exact absurd ha (hok j)
  · omega

private theorem no_timeout_of_exclusive (s : System ι) (a : Label ι) (t : System ι)
    (hs : step s a = some t) (ht : Exclusive t) (i : ι) : a ≠ .timedOut i := by
  rintro rfl
  cases step_moves hs with
  | @timedOut _ e _ _ hforeign =>
    -- told of a success it does not have
    have howned := ht.1 i (by rw [answer_held,if_pos ⟨succeeds_ok e false,rfl⟩]; omega)
    exact absurd hforeign (Nat.ne_of_gt howned)

end Runs

/-- In any run, every success a caller was told of is one, no two callers have one and
no matching `unlock()` throws exactly when no `acquire` timed out. -/
theorem exclusive_iff_no_timeout (as : List (Label ι)) (s : System ι)
    (h : exec step {} as = some s) :
    (Always step Exclusive {} as ∧ StepsMeet step UnlockOwned {} as) ↔
      ∀ i, .timedOut i ∉ as := by
  have hinit : Told ({} : System ι) := fun _ => rfl
  constructor
  · rintro ⟨hexcl,_⟩ i hi
    have hok := hexcl.stepsMeet step_told
      (fun s a t _ hs ht => no_timeout_of_exclusive s a t hs ht) hinit h
    exact hok.forall h _ hi i rfl
  · intro hno
    have hlabels : ∀ a ∈ as, ∀ i, a ≠ .timedOut i := fun a ha i he => hno i (he ▸ ha)
    have hok : StepsMeet step _ ({} : System ι) as := stepsMeet_of_forall hlabels _
    exact ⟨(hok.always step_told hinit).mono fun t ht => ht.exclusive,
      hok.imp step_told (fun s a ht _ => ht.unlockOwned a) hinit⟩

theorem exclusive_without_timeouts :
    let as : List (Label Bool) := [.call false .lock,.acquired false,.call true .tryLock,
      .call false (.tryLockFor 5),.acquired false,.failed true,.unlock false,.unlock false]
    (∃ s, exec step {} as = some s) ∧
      Always step Exclusive {} as ∧ StepsMeet step UnlockOwned {} as := by
  intro as
  obtain ⟨s,hs⟩ : ∃ s, exec step {} as = some s := ⟨_,rfl⟩
  refine ⟨⟨s,hs⟩,(exclusive_iff_no_timeout as s hs).mpr fun i => ?_⟩
  cases i <;> decide

/-- `false` holds the lock, `true` waits in `tryLock()` until the time is up and is told
that it has the lock too; its `unlock()` will throw. -/
theorem timed_out_tryLock_reports_success :
    ∃ s : System Bool, exec step {} [.call false .lock,.acquired false,.call true .tryLock,
        .timedOut true] = some s ∧
      s.held false = 1 ∧ s.held true = 1 ∧ ¬ Exclusive s ∧ ¬ UnlockOwned s (.unlock true) := by
  refine ⟨_,rfl,rfl,rfl,fun h => ?_,fun h => ?_⟩
  · exact absurd (h.2 false true (by decide) (by decide)) (by decide)
  · obtain ⟨m,hm⟩ := h (by decide)
    cases hm

end ZookeeperLock
end CloudWeb.Lock
