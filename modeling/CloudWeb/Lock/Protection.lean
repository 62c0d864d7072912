import CloudWeb.Lock.AutomaticRelease

/-! What a reported success is worth while its timeout runs: the lock itself, for every call
of `RedisLock`. `ZookeeperLock` takes the timeout for a waiting time and reports success when
it is over. -/
namespace CloudWeb.Lock.AutomaticRelease
open Foundation

variable {ι : Type*} [DecidableEq ι]

/-- The hold in force is that of `i`. -/
def World.Owns (w : World ι) (i : ι) : Prop := ∃ h ∈ w.current, h.owner = i

/-- A connected caller whose last call succeeded owns the lock while its timeout runs.
`uses` are the calls that are made. -/
def Protects (ι : Type*) [DecidableEq ι] (impl : Implementation) (uses : Entry → Prop) : Prop :=
  ∀ (as : List (Label ι)) (w : World ι), (∀ i e, .call i e ∈ as → uses e) →
    exec (step impl) {} as = some w →
      ∀ i t timeout, w.connected i = true → w.last i = some (t,timeout) → w.now < t+timeout → w.Owns i

/-- The hold of `i`, which does not end before `x`. -/
def World.HeldUntil (w : World ι) (i : ι) (x : Int) : Prop :=
  ∃ h ∈ w.hold, h.owner = i ∧ ∀ y ∈ h.expiry, x ≤ y

/-- The last success of `i` is past, and while its timeout runs the hold is that of `i`. -/
def World.Secures (w : World ι) (i : ι) : Prop :=
  ∀ t timeout, w.last i = some (t,timeout) →
    t ≤ w.now ∧ (w.connected i = true → w.now < t+timeout → w.HeldUntil i (t+timeout))

structure Secured (uses : Entry → Prop) (w : World ι) : Prop where
  entries : ∀ i e, w.pending i = some e → uses e
  secures : ∀ i, w.Secures i

section Steps
variable {impl : Implementation} {uses : Entry → Prop} {w w' : World ι} {i : ι}

omit [DecidableEq ι] in
private theorem mem_current {h : Hold ι} : h ∈ w.current ↔ h ∈ w.hold ∧ ∀ y ∈ h.expiry, w.now < y := by
  simp only [World.current,Option.mem_def,Option.filter_eq_some_iff,Option.all_eq_true,decide_eq_true_eq]

omit [DecidableEq ι] in
private theorem World.HeldUntil.current {x : Int} (h : w.HeldUntil i x) (hx : w.now < x) :
    ∃ g ∈ w.current, g.owner = i ∧ ∀ y ∈ g.expiry, x ≤ y := by
  obtain ⟨g,hg,ho,hy⟩ := h
  exact ⟨g,mem_current.mpr ⟨hg,fun y he => Int.lt_of_lt_of_le hx (hy y he)⟩,ho,hy⟩

omit [DecidableEq ι] in
private theorem World.secures_of_none (h : w.last i = none) : w.Secures i := by
  intro t timeout hl
  rw [h] at hl
  cases hl

omit [DecidableEq ι] in
/-- Only `i` takes part, and a hold in force that is not its own stays. -/
theorem Secured.frame (h : Secured uses w) (hnow : w'.now = w.now)
    (hp : ∀ j e, w'.pending j = some e → uses e)
    (hother : ∀ j, j ≠ i → w'.connected j = w.connected j ∧ w'.last j = w.last j)
    (hhold : ∀ g ∈ w.current, g.owner ≠ i → w'.hold = some g) (hi : w'.Secures i) :
    Secured uses w' := by
  refine ⟨hp,fun j => ?_⟩
  by_cases hj : j = i
  · exact hj ▸ hi
  · obtain ⟨hc,hl⟩ := hother j hj
    intro t timeout ht
    rw [hc,hnow]
    obtain ⟨hpast,hheld⟩ := h.secures j t timeout (hl ▸ ht)
    refine ⟨hpast,fun hcon hlt => ?_⟩
    obtain ⟨g,hg,rfl,hy⟩ := (hheld hcon hlt).current hlt
    exact ⟨g,hhold g hg hj,rfl,hy⟩

private theorem entries_update {pending : ι → Option Entry} (h : ∀ j e, pending j = some e → uses e)
    {p : Option Entry} (hp : ∀ e, p = some e → uses e) (j : ι) (e : Entry)
    (hj : Function.update pending i p j = some e) : uses e := by
  revert j e
  exact (Function.forall_update_iff pending fun _ q => ∀ e, q = some e → uses e).mpr ⟨hp,fun j _ => h j⟩

private theorem entries_clear {pending : ι → Option Entry} (h : ∀ j e, pending j = some e → uses e)
    (j : ι) (e : Entry) (hj : Function.update pending i none j = some e) : uses e :=
  entries_update h (fun e he => absurd he.symm (Option.some_ne_none e)) j e hj

omit [DecidableEq ι] in
private theorem leaseEnd_ge (lease : Int) : ∀ y ∈ w.leaseEnd lease, w.now+lease ≤ y := by
  intro y hy
  unfold World.leaseEnd at hy
  split at hy
  · cases hy
  · exact Int.le_of_eq (Option.some.inj hy)

omit [DecidableEq ι] in
private theorem grant_until (e : Entry) :
    (w.grant i e impl).owner = i ∧ ∀ y ∈ (w.grant i e impl).expiry, w.now+e.timeout ≤ y := by
  have hlease := leaseTime_eq e ▸ leaseEnd_ge (w := w) (RedisLock.leaseTime e)
  cases impl with
  | redisLock =>
    cases hc : w.current with
    | none =>
      simp only [World.grant,hc,true_and]
      exact hlease
    | some g =>
      simp only [World.grant,hc,true_and]
      intro y hy
      obtain ⟨_,_,hend⟩ := Option.bind_eq_some_iff.mp hy
      exact hlease y hend
  | zookeeperLock =>
    cases hc : w.current <;> simp only [World.grant,hc,true_and] <;>
      exact fun y hy => absurd hy (Option.not_mem_none y)

/-- A call that ends: the others see no change but in a hold they do not have. -/
theorem Secured.answer (h : Secured uses w) {e : Entry} {o : Outcome} {hold : Option (Hold ι)}
    (hhold : ∀ g ∈ w.current, g.owner ≠ i → hold = some g)
    (hi : succeeds e impl o = true → w.now < w.now+e.timeout →
      World.HeldUntil { w with hold := hold } i (w.now+e.timeout)) :
    Secured uses (World.answer { w with hold := hold } impl i e o) := by
  refine h.frame (i := i) rfl (entries_clear h.entries)
    (fun j hj => ⟨rfl,Function.update_of_ne hj ..⟩) hhold ?_
  intro t timeout hl
  simp only [World.answer,Function.update_self] at hl
  split at hl
  · next hs =>
    cases hl
    exact ⟨Int.le_refl _,fun _ => hi hs⟩
  · cases hl

private theorem Secured.unlock (h : Secured uses w) (i : ι) {hold : Option (Hold ι)}
    (hhold : ∀ g ∈ w.current, g.owner ≠ i → hold = some g) :
    Secured uses { w.forget i with hold := hold } :=
  h.frame (i := i) rfl h.entries (fun _ hj => ⟨rfl,Function.update_of_ne hj ..⟩) hhold
    (World.secures_of_none (Function.update_self ..))

omit [DecidableEq ι] in
private theorem foreign_absurd {g h : Hold ι} (hown : h ∈ w.current) (hg : g ∈ w.current)
    (hne : g.owner ≠ h.owner) {P : Prop} : P := by
  obtain rfl : h = g := Option.some.inj (hown.symm.trans hg)
  exact absurd rfl hne

private theorem step_secured (huses : ∀ e, uses e → impl = .redisLock ∨ e = .lock ∨ e.timeout ≤ 0)
    (w : World ι) (a : Label ι) (w' : World ι) (h : Secured uses w)
    (hok : ∀ i e, a = .call i e → uses e) (hs : step impl w a = some w') : Secured uses w' := by
  have hstays (i : ι) (g : Hold ι) (hg : g ∈ w.current) (_ : g.owner ≠ i) : w.hold = some g :=
    (mem_current.mp hg).1
  cases step_moves hs with
  | @called i e =>
    refine h.frame (i := i) rfl (entries_update h.entries ?_)
      (fun j hj => ⟨rfl,Function.update_of_ne hj ..⟩) (hstays i)
      (World.secures_of_none (Function.update_self ..))
    rintro _ ⟨⟩
    exact hok i e rfl
  | acquired _ hg =>
    -- the back end grants what nobody else has
    exact h.answer (fun g hc hne => absurd (hg g hc) hne) fun _ _ => ⟨_,rfl,grant_until _⟩
  | @timedOut i e hp hcurator hwait =>
    refine h.answer (hstays i) fun _ hlt => ?_
    rcases huses e (h.entries i e hp) with hr | rfl | ht
    · rw [hcurator] at hr
      cases hr
    · exact absurd rfl hwait
    · omega
  | @failed i e _ =>
    refine h.answer (hstays i) fun hf _ => ?_
    have hno : succeeds e impl .failed = false := by cases e <;> cases impl <;> rfl
    rw [hno] at hf
    cases hf
  | @refused i _ => exact h.unlock i (hstays i)
  | @released i _ _ hown => exact h.unlock i fun g hg hne => foreign_absurd hown hg hne
  | @nested i _ _ _ hown => exact h.unlock i fun g hg hne => foreign_absurd hown hg hne
  | elapsed =>
    refine ⟨h.entries,fun i t timeout hl => ?_⟩
    obtain ⟨hpast,hheld⟩ := h.secures i t timeout hl
    exact ⟨by dsimp only; omega,fun hcon hlt => hheld hcon (by dsimp only at hlt; omega)⟩
  | @disconnected i _ hsession =>
    refine h.frame (i := i) rfl (entries_clear h.entries)
      (fun j hj => ⟨Function.update_of_ne hj ..,rfl⟩) (fun g hg hne => ?_) fun t timeout hl => ?_
    · have hh := hstays i g hg hne
      rcases hsession with rfl | rfl
      · exact hh
      · exact Option.filter_eq_some_iff.mpr ⟨hh,decide_eq_true hne⟩
    · refine ⟨(h.secures i t timeout hl).1,fun hcon => ?_⟩
      dsimp only at hcon
      rw [Function.update_self] at hcon
      cases hcon

omit [DecidableEq ι] in
private theorem Secured.owns (h : Secured uses w) {t timeout : Int} (hcon : w.connected i = true)
    (hl : w.last i = some (t,timeout)) (hlt : w.now < t+timeout) : w.Owns i := by
  obtain ⟨g,hg,ho,_⟩ := ((h.secures i t timeout hl).2 hcon hlt).current hlt
  exact ⟨g,hg,ho⟩

omit [DecidableEq ι] in
private theorem secured_init : Secured uses ({} : World ι) :=
  ⟨fun _ _ h => (nomatch h),fun _ => World.secures_of_none rfl⟩

omit [DecidableEq ι] in
private theorem leased_init : Leased ({} : World ι) := ⟨fun _ _ h => (nomatch h),fun _ h => (nomatch h)⟩

end Steps

/-- `j` has the lock, the call of `i` waits for its timeout. -/
def outwaited (i j : ι) (e : Entry) : List (Label ι) :=
  [.call j e,.ends j .acquired,.call i e,.elapse e.timeout.toNat,.ends i .timedOut]

omit [DecidableEq ι] in
private theorem call_mem_outwaited {i j k : ι} {e e' : Entry} (h : .call k e' ∈ outwaited i j e) :
    e' = e := by
  simp only [outwaited,List.mem_cons,Label.call.injEq,reduceCtorEq,List.not_mem_nil,or_false,
    false_or] at h
  exact h.elim And.right And.right

private theorem exec_outwaited {i j : ι} (hij : i ≠ j) {e : Entry} (hlock : e ≠ .lock)
    (ht : 0 < e.timeout) :
    ∃ w : World ι, exec (step .zookeeperLock) {} (outwaited i j e) = some w ∧
      w.connected i = true ∧ w.last i = some (e.timeout,e.timeout) ∧ w.now = e.timeout ∧
        w.current = some ⟨j,0,none⟩ := by
  have hs (o : Outcome) (ho : o ≠ .failed) : succeeds e .zookeeperLock o = true := by
    cases o
    case failed => exact absurd rfl ho
    all_goals cases e <;> rfl
  have hwait : ZookeeperLock.waitingTime e ≠ none := by
    cases e
    case lock => exact absurd rfl hlock
    all_goals exact nofun
  have hmax : max e.timeout 0 = e.timeout := Int.max_eq_left (Int.le_of_lt ht)
  simp [outwaited,exec_cons,step,World.answer,World.Grants,World.current,World.grant,hs,hwait,
    hij.symm,hmax]

/-- Success means the lock, for the length of the timeout, exactly if calls go to `RedisLock`,
do not give up or have no timeout to speak of. -/
theorem protects_iff (ι : Type*) [DecidableEq ι] [Nontrivial ι] (impl : Implementation)
    (uses : Entry → Prop) :
    Protects ι impl uses ↔ ∀ e, uses e → impl = .redisLock ∨ e = .lock ∨ e.timeout ≤ 0 := by
  constructor
  · intro h e he
    by_contra hno
    simp only [not_or,Int.not_le] at hno
    obtain ⟨himpl,hlock,ht⟩ := hno
    cases impl with
    | redisLock => exact himpl rfl
    | zookeeperLock =>
      obtain ⟨i,j,hij⟩ := exists_pair_ne ι
      obtain ⟨w,hw,hcon,hlast,hnow,hcur⟩ := exec_outwaited hij hlock ht
      have huses (k : ι) (e' : Entry) (hk : .call k e' ∈ outwaited i j e) : uses e' :=
        call_mem_outwaited hk ▸ he
      obtain ⟨g,hg,ho⟩ := h _ w huses hw i _ _ hcon hlast (by omega)
      rw [hcur] at hg
      cases hg
      exact hij ho.symm
  · intro h as w huses hw i t timeout hcon hlast hlt
    have hok : ∀ a ∈ as, ∀ i e, a = .call i e → uses e := fun a ha i e hae => huses i e (hae ▸ ha)
    exact (exec_invariant (step_secured h) secured_init (stepsMeet_of_forall hok _) hw).owns
      hcon hlast hlt

theorem protects_by_redis_alone :
    Protects Bool .redisLock (fun _ => True) ∧ ¬ Protects Bool .zookeeperLock (· = .tryLockFor 5) := by
  refine ⟨(protects_iff Bool .redisLock _).mpr fun _ _ => .inl rfl,fun h => ?_⟩
  have hno := (protects_iff Bool .zookeeperLock _).mp h (.tryLockFor 5) rfl
  exact absurd hno (by decide)

/-- A `RedisLock` is its caller's up to the end of the timeout and no longer, in any run
without a timeout of -1, whoever else calls, takes the lock again or gives it back early. -/
theorem redis_owns_iff (as : List (Label ι)) (w : World ι)
    (htimeout : ∀ i e, .call i e ∈ as → e.timeout ≠ -1) (h : exec (step .redisLock) {} as = some w)
    (i : ι) (t timeout : Int) (hcon : w.connected i = true) (hlast : w.last i = some (t,timeout)) :
    w.Owns i ↔ w.now < t+timeout := by
  have hok : ∀ a ∈ as, ∀ i e, a = .call i e → e.timeout ≠ -1 :=
    fun a ha i e hae => htimeout i e (hae ▸ ha)
  have hmeet : StepsMeet (step .redisLock) (fun _ a => ∀ i e, a = .call i e → e.timeout ≠ -1) {} as :=
    stepsMeet_of_forall hok _
  have hleased := exec_invariant step_leased leased_init hmeet h
  have hsecured := exec_invariant (step_secured fun _ _ => .inl rfl) secured_init hmeet h
  refine ⟨?_,hsecured.owns hcon hlast⟩
  rintro ⟨g,hg,rfl⟩
  obtain ⟨hhold,hforce⟩ := mem_current.mp hg
  obtain ⟨x,hx,hend⟩ := hleased.lease g hhold
  exact hend t timeout hlast ▸ hforce x hx

theorem redis_taken_again :
    let as : List (Label Bool) := [.call false (.tryLockFor 5),.ends false .acquired,.elapse 3,
      .call false (.tryLockFor 10),.ends false .acquired,.elapse 9]
    ∃ w, exec (step .redisLock) {} as = some w ∧ w.last false = some (3,10) ∧
      (w.Owns false ↔ w.now < 3+10) := by
  intro as
  have hw : ∃ w, exec (step .redisLock) {} as = some w ∧ w.last false = some (3,10) ∧
      w.connected false = true := ⟨_,rfl,rfl,rfl⟩
  obtain ⟨w,hw,hlast,hcon⟩ := hw
  have htimeout (i : Bool) (e : Entry) (he : .call i e ∈ as) : e.timeout ≠ -1 := by
    simp only [as,List.mem_cons,Label.call.injEq,reduceCtorEq,List.not_mem_nil,or_false,false_or] at he
    rcases he with ⟨_,rfl⟩ | ⟨_,rfl⟩ <;> decide
  exact ⟨w,hw,hlast,redis_owns_iff as w htimeout hw false 3 10 hcon hlast⟩

end CloudWeb.Lock.AutomaticRelease
