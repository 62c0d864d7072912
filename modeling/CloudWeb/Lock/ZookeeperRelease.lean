import CloudWeb.Lock.ZookeeperLock

/-! How a `ZookeeperLock` gets free again: its owner gives back each success it was told of. -/
namespace CloudWeb.Lock.ZookeeperLock
open Foundation
variable {ι : Type*} [DecidableEq ι]

/-- Nobody owns the mutex oftener than it was told. -/
def Owed (s : System ι) : Prop := ∀ i, s.mutex.count i ≤ s.held i

section Runs
variable {s t : System ι} {i j : ι}

private theorem step_owed (s : System ι) (a : Label ι) (t : System ι) (h : Owed s)
    (hs : step s a = some t) :
    Owed t := by
  intro j
  have hj := h j
  rcases (step_moves hs).told j with ⟨hh,hc⟩ | ⟨hh,hc⟩ | ⟨_,hh,hc⟩ | ⟨hh,hc⟩ <;> omega

private theorem step_unlock (hp : s.pending j = none) :
    ∃ t, step s (.unlock j) = some t ∧ t.pending = s.pending ∧ (∀ i, i ≠ j → t.held i = s.held i) ∧
      t.mutex.count j = s.mutex.count j-1 ∧ ∀ i, i ≠ j → t.mutex.count i = s.mutex.count i := by
  cases hm : s.mutex.release j with
  | none =>
    refine ⟨s,by simp [step,hp,hm,unlock],rfl,fun _ _ => rfl,?_,fun _ _ => rfl⟩
    have hzero : s.mutex.count j = 0 := by
      by_contra hne
      obtain ⟨m,hm'⟩ := ReentrantMutex.release_of_owner (Nat.pos_of_ne_zero hne)
      rw [hm] at hm'
      cases hm'
    omega
  | some m =>
    obtain ⟨hself,hother⟩ := ReentrantMutex.release_count hm
    refine ⟨{ s with mutex := m, held := Function.update s.held j (s.held j-1) },
      by simp [step,hp,hm,unlock],rfl,fun i hi => Function.update_of_ne hi ..,?_,hother⟩
    dsimp only
    omega

private theorem exec_unlocks (n : Nat) (hp : s.pending j = none) :
    ∃ t, exec step s (List.replicate n (.unlock j)) = some t ∧ t.pending = s.pending ∧
      (∀ i, i ≠ j → t.held i = s.held i) ∧ t.mutex.count j = s.mutex.count j-n ∧
      ∀ i, i ≠ j → t.mutex.count i = s.mutex.count i := by
  induction n generalizing s with
  | zero => exact ⟨s,rfl,rfl,fun _ _ => rfl,rfl,fun _ _ => rfl⟩
  | succ n ih =>
    obtain ⟨u,hu,hpu,hheld,hself,hother⟩ := step_unlock hp
    obtain ⟨t,ht,hpt,hheld',hself',hother'⟩ := ih (s := u) (hpu ▸ hp)
    refine ⟨t,?_,hpt.trans hpu,fun i hi => (hheld' i hi).trans (hheld i hi),by omega,
      fun i hi => (hother' i hi).trans (hother i hi)⟩
    rw [List.replicate_succ,exec_cons,hu]
    exact ht

private theorem eq_free {m : ReentrantMutex ι} (h : ∀ i, m.count i = 0) : m = .free := by
  cases m with
  | free => rfl
  | held o n =>
    have ho := h o
    rw [ReentrantMutex.count,if_pos rfl] at ho
    cases ho

end Runs

/-- In every state of every run, waits that timed out included: when the owner has called
`unlock()` once for each success it was told of, the mutex is free, and every call that
waits can be granted. -/
theorem unlocks_grant_the_waiting (as : List (Label ι)) (s : System ι) (h : exec step {} as = some s)
    (j : ι) (howner : 0 < s.mutex.count j) (hp : s.pending j = none) :
    ∃ t, exec step s (List.replicate (s.held j) (.unlock j)) = some t ∧ t.mutex = .free ∧
      ∀ i e, s.pending i = some e → ∃ u, step t (.acquired i) = some u ∧ u.held i = s.held i+1 := by
  have howed : Owed s := exec_invariant (fun s a t hs _ => step_owed s a t hs) (fun _ => Nat.le_refl _)
    (stepsMeet_true _ as) h
  obtain ⟨t,ht,hpt,hheld,hself,hother⟩ := exec_unlocks (s.held j) hp
  have hfree : t.mutex = .free := by
    refine eq_free fun i => ?_
    by_cases hi : i = j
    · subst hi
      have := howed i
      omega
    · rw [hother i hi]
      by_contra hne
      exact hi (ReentrantMutex.owner_unique (Nat.pos_of_ne_zero hne) howner)
  refine ⟨t,ht,hfree,fun i e hi => ?_⟩
  have hij : i ≠ j := by
    rintro rfl
    rw [hp] at hi
    cases hi
  rw [← hpt] at hi
  refine ⟨System.answer { t with mutex := .held i 0 } i e (.ok true),?_,?_⟩
  · simp only [step,hi,hfree,ReentrantMutex.acquire]
  · rw [answer_held,if_pos ⟨succeeds_ok e true,rfl⟩]
    exact congrArg (· + 1) (hheld i hij)

/-- `false` owns the lock once and was told so twice; its second `unlock()` throws. -/
theorem unlocks_grant_after_timeout :
    let as : List (Label Bool) := [.call true .lock,.acquired true,.call false .tryLock,.timedOut false,
      .unlock true,.call false .lock,.acquired false,.call true .lock]
    ∃ s, exec step {} as = some s ∧ s.held false = 2 ∧ s.mutex.count false = 1 ∧
      ∃ t, exec step s (List.replicate (s.held false) (.unlock false)) = some t ∧ t.mutex = .free ∧
        ∀ i e, s.pending i = some e → ∃ u, step t (.acquired i) = some u ∧ u.held i = s.held i+1 := by
  intro as
  have hrun : ∃ s, exec step {} as = some s ∧ s.held false = 2 ∧ s.mutex.count false = 1 ∧
      s.pending false = none := ⟨_,rfl,rfl,rfl,rfl⟩
  obtain ⟨s,hs,hheld,hcount,hp⟩ := hrun
  exact ⟨s,hs,hheld,hcount,unlocks_grant_the_waiting as s hs false (by omega) hp⟩

end CloudWeb.Lock.ZookeeperLock
