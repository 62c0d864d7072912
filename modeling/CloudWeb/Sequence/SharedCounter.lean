import CloudWeb.Sequence.NumberCacheSequence

/-! `RedisSequence` and `NumberCacheSequence` built with one name, as the two order
number entries of `SequenceManager` are. Each call touches Redis at most once, so a
schedule is an order of whole calls. -/
namespace CloudWeb.Sequence.SharedCounter
open Java Foundation
variable {ι κ : Type*} [DecidableEq κ]

/-- Redis maps counter keys to values, an absent key reading 0. `singles` and `blocks`
record, newest first, what each class has returned; `lastSingle` says that the
counter was last moved by `incrementAndGet`. -/
structure Shared (ι κ : Type*) where
  redis : String → Int
  cache : κ → NumberCacheSequence
  singles : List (ι × Int)
  blocks : List (κ × Int)
  lastSingle : Bool

def boot (redis : String → Int) : Shared ι κ := ⟨redis,fun _ => {},[],[],false⟩

inductive Event (ι κ : Type*)
  | single (i : ι)
  | block (k : κ)
  deriving DecidableEq, Repr

/-- Write back one `NumberCacheSequence` call that got `reply` for its segment. -/
def Shared.finish (s : Shared ι κ) (k : κ) (reply : Except RedisException Int) : Shared ι κ :=
  let out := (s.cache k).next reply
  { s with
    cache := Function.update s.cache k out.2
    blocks := match out.1 with
      | .ok n => (k,n) :: s.blocks
      | .error _ => s.blocks }

/-- One whole call. A refused command throws out of `next()`. -/
def step (name : String) (s : Shared ι κ) : Event ι κ → Option (Shared ι κ)
  | .single i =>
    let key := RedisSequence.sequenceKey name
    match RAtomicLong.incrementAndGet (s.redis key) with
    | some (v,c) =>
      let s := { s with redis := Function.update s.redis key c, lastSingle := true }
      match RedisSequence.next (.ok v) with
      | .ok n => some { s with singles := (i,n) :: s.singles }
      | .error _ => some s
    | none => some s
  | .block k =>
    let key := NumberCacheSequence.namespaceKey name
    if (s.cache k).low then
      match RAtomicLong.getAndAdd NumberCacheSequence.PERIOD (s.redis key) with
      | some (v,c) =>
        some ({ s with redis := Function.update s.redis key c, lastSingle := false }.finish k (.ok v))
      | none => some (s.finish k (.error .overflow))
    else some (s.finish k (.error .unavailable))

private theorem key_shared (name : String) :
    NumberCacheSequence.namespaceKey name = RedisSequence.sequenceKey name := rfl

def Shared.returns (s : Shared ι κ) (k : κ) (n m : Int) : Shared ι κ :=
  { s with
    cache := Function.update s.cache k { curValue := toLong (n+1), maxCacheValue := m }
    blocks := (k,n) :: s.blocks }

/-- Everything a step can be while the counter shows `v`. -/
inductive Moves (name : String) (v : Int) (s : Shared ι κ) : Event ι κ → Shared ι κ → Prop
  | counted {i} (room : Long.InRange (v+1)) :
      Moves name v s (.single i) { s with
        redis := Function.update s.redis (RedisSequence.sequenceKey name) (v+1)
        lastSingle := true
        singles := (i,v+1) :: s.singles }
  | refused {i} : Moves name v s (.single i) s
  | granted {k} (low : (s.cache k).low = true) (room : Long.InRange (v+NumberCacheSequence.PERIOD)) :
      Moves name v s (.block k)
        (Shared.returns { s with
          redis := Function.update s.redis (RedisSequence.sequenceKey name) (v+NumberCacheSequence.PERIOD)
          lastSingle := false } k v (v+NumberCacheSequence.PERIOD))
  | full {k} (overflow : RAtomicLong.getAndAdd NumberCacheSequence.PERIOD v = none) :
      Moves name v s (.block k) s
  | cached {k} (stock : (s.cache k).low = false) :
      Moves name v s (.block k) (s.returns k (s.cache k).curValue (s.cache k).maxCacheValue)

private theorem step_moves {name : String} {s t : Shared ι κ} {a : Event ι κ}
    (hs : step name s a = some t) :
    Moves name (s.redis (RedisSequence.sequenceKey name)) s a t := by
  cases a with
  | single i =>
    simp only [step] at hs
    split at hs
    · next hg =>
      obtain ⟨rfl,rfl,hc⟩ := RAtomicLong.incrementAndGet_some hg
      cases hs
      exact .counted hc
    · cases hs
      exact .refused
  | block k =>
    simp only [step,key_shared] at hs
    split at hs
    · next hl =>
      split at hs <;> cases hs
      · next hg =>
        obtain ⟨rfl,rfl,hc⟩ := RAtomicLong.getAndAdd_some hg
        simp only [Shared.finish,NumberCacheSequence.next_refill hl,toLong_eq hc]
        exact .granted hl hc
      · next hg =>
        simp only [Shared.finish,NumberCacheSequence.next_refused hl,Function.update_eq_self]
        exact .full hg
    · next hl =>
      cases hs
      rw [Bool.not_eq_true] at hl
      simp only [Shared.finish,NumberCacheSequence.next_cached hl]
      exact .cached hl

/-- The number a `RedisSequence` returned is never one a `NumberCacheSequence` returned. -/
def Disjoint (s : Shared ι κ) : Prop := ∀ i k n, (i,n) ∈ s.singles → (k,n) ∉ s.blocks

/-- No segment is taken while the counter was last moved by `incrementAndGet`. -/
def SegmentClear (name : String) (s : Shared ι κ) : Event ι κ → Prop
  | .single _ => True
  | .block k => (s.cache k).low = true →
    (RAtomicLong.getAndAdd NumberCacheSequence.PERIOD
      (s.redis (NumberCacheSequence.namespaceKey name))).isSome → s.lastSingle = false

/-- The counter bounds both histories, and no cached number was returned singly. -/
structure Apart (name : String) (s : Shared ι κ) : Prop where
  range : Long.InRange (s.redis (RedisSequence.sequenceKey name))
  width : ∀ k, Long.InRange (s.cache k).curValue ∧ Long.InRange (s.cache k).maxCacheValue ∧
    (s.cache k).curValue ≤ (s.cache k).maxCacheValue ∧
    (s.cache k).maxCacheValue ≤ (s.cache k).curValue+NumberCacheSequence.PERIOD
  below : ∀ k, (s.cache k).curValue < (s.cache k).maxCacheValue →
    (s.cache k).maxCacheValue ≤ s.redis (RedisSequence.sequenceKey name)
  single_le : ∀ e ∈ s.singles, e.2 ≤ s.redis (RedisSequence.sequenceKey name)
  single_lt : s.lastSingle = false → ∀ e ∈ s.singles, e.2 < s.redis (RedisSequence.sequenceKey name)
  last : s.lastSingle = true → ∃ i, (i,s.redis (RedisSequence.sequenceKey name)) ∈ s.singles
  live : ∀ k, ∀ e ∈ s.singles, ¬ ((s.cache k).curValue ≤ e.2 ∧ e.2 < (s.cache k).maxCacheValue)
  block_lt : ∀ e ∈ s.blocks, e.2 < s.redis (RedisSequence.sequenceKey name)
  disjoint : Disjoint s

omit [DecidableEq κ] in
private theorem boot_apart (name : String) (redis : String → Int)
    (hr : Long.InRange (redis (RedisSequence.sequenceKey name))) :
    Apart name (boot redis : Shared ι κ) where
  range := hr
  width _ := by
    have hz : Long.InRange (0 : Int) := by decide
    exact ⟨hz,hz,le_refl _,show (0 : Int) ≤ 0+NumberCacheSequence.PERIOD by decide⟩
  below _ h := absurd h (lt_irrefl _)
  single_le := nofun
  single_lt _ := nofun
  last := nofun
  live _ := nofun
  block_lt := nofun
  disjoint := fun _ _ _ h => nomatch h

private theorem Apart.issue {name : String} {s : Shared ι κ} (h : Apart name s) (k : κ) {n m : Int}
    (hn : Long.InRange n) (hm : Long.InRange m) (hnm : n < m) (hw : m ≤ n+NumberCacheSequence.PERIOD)
    (ht : m ≤ s.redis (RedisSequence.sequenceKey name))
    (hlive : ∀ e ∈ s.singles, ¬ (n ≤ e.2 ∧ e.2 < m)) : Apart name (s.returns k n m) := by
  have hn1 : Long.InRange (n+1) := hn.between hm (by omega) (by omega)
  rw [Shared.returns,toLong_eq hn1]
  refine ⟨h.range,?_,?_,h.single_le,h.single_lt,h.last,?_,?_,?_⟩
  · rw [Function.forall_update_iff s.cache fun _ q => Long.InRange q.curValue ∧
      Long.InRange q.maxCacheValue ∧ q.curValue ≤ q.maxCacheValue ∧
      q.maxCacheValue ≤ q.curValue+NumberCacheSequence.PERIOD]
    exact ⟨⟨hn1,hm,by dsimp only; omega,by dsimp only; omega⟩,fun j _ => h.width j⟩
  · rw [Function.forall_update_iff s.cache fun _ q => q.curValue < q.maxCacheValue →
      q.maxCacheValue ≤ s.redis (RedisSequence.sequenceKey name)]
    exact ⟨fun _ => ht,fun j _ => h.below j⟩
  · rw [Function.forall_update_iff s.cache fun _ q => ∀ e ∈ s.singles,
      ¬ (q.curValue ≤ e.2 ∧ e.2 < q.maxCacheValue)]
    refine ⟨fun e he hh => ?_,fun j _ => h.live j⟩
    exact hlive e he ⟨by dsimp only at hh; omega,hh.2⟩
  · intro e he
    rcases List.mem_cons.mp he with rfl | he
    · exact hnm.trans_le ht
    · exact h.block_lt e he
  · intro i j x hx hb
    rcases List.mem_cons.mp hb with he | hb
    · cases he
      exact hlive _ hx ⟨le_refl _,hnm⟩
    · exact h.disjoint i j x hx hb

omit [DecidableEq κ] in
private theorem Apart.grant {name : String} {s : Shared ι κ} (h : Apart name s)
    (hclear : s.lastSingle = false) {c : Int} (hc : Long.InRange c)
    (hle : s.redis (RedisSequence.sequenceKey name) ≤ c) :
    Apart name { s with
      redis := Function.update s.redis (RedisSequence.sequenceKey name) c, lastSingle := false } := by
  refine ⟨?_,h.width,fun k hk => ?_,fun e he => ?_,fun _ e he => ?_,nofun,h.live,fun e he => ?_,
    h.disjoint⟩
  all_goals simp only [Function.update_self]
  · exact hc
  · exact (h.below k hk).trans hle
  · exact (h.single_le e he).trans hle
  · exact (h.single_lt hclear e he).trans_le hle
  · exact (h.block_lt e he).trans_le hle

omit [DecidableEq κ] in
private theorem Apart.count {name : String} {s : Shared ι κ} (h : Apart name s) (i : ι)
    (hc : Long.InRange (s.redis (RedisSequence.sequenceKey name)+1)) :
    Apart name { s with
      redis := Function.update s.redis (RedisSequence.sequenceKey name)
        (s.redis (RedisSequence.sequenceKey name)+1)
      lastSingle := true
      singles := (i,s.redis (RedisSequence.sequenceKey name)+1) :: s.singles } := by
  refine ⟨?_,h.width,fun k hk => ?_,fun e he => ?_,nofun,fun _ => ⟨i,?_⟩,fun k e he hh => ?_,fun e he => ?_,
    fun j k n hn hb => ?_⟩
  · simpa only [Function.update_self] using hc
  · have := h.below k hk
    simp only [Function.update_self]
    omega
  · simp only [Function.update_self]
    rcases List.mem_cons.mp he with rfl | he
    · exact le_refl _
    · have := h.single_le e he
      omega
  · simp
  · rcases List.mem_cons.mp he with rfl | he
    · have := h.below k (by dsimp only at hh; omega)
      dsimp only at hh
      omega
    · exact h.live k e he hh
  · have := h.block_lt e he
    simp only [Function.update_self]
    omega
  · rcases List.mem_cons.mp hn with he | hn
    · cases he
      have := h.block_lt _ hb
      dsimp only at this
      omega
    · exact h.disjoint j k n hn hb

private theorem step_apart {name : String} (s : Shared ι κ) (a : Event ι κ) (t : Shared ι κ)
    (h : Apart name s) (hok : SegmentClear name s a) (hs : step name s a = some t) :
    Apart name t := by
  cases step_moves hs with
  | @counted i hc => exact h.count i hc
  | refused => exact h
  | @granted k hl hc =>
    have hP : NumberCacheSequence.PERIOD = 100 := rfl
    have hclear := hok hl (by rw [key_shared,RAtomicLong.getAndAdd,if_pos hc]; rfl)
    refine (h.grant hclear hc (by omega)).issue k h.range hc (by omega) (le_refl _) ?_ fun e he hh => ?_
    · simp only [Function.update_self,le_refl]
    · exact absurd (h.single_lt hclear e he) (not_lt.mpr hh.1)
  | full _ => exact h
  | @cached k hl =>
    obtain ⟨hcur,hmax,hle,hw⟩ := h.width k
    have hP : NumberCacheSequence.PERIOD ≤ Long.MAX_VALUE := by decide
    have hroom := NumberCacheSequence.low_false hle (by omega) hl
    exact h.issue k hcur hmax (by omega) hw (h.below k (by omega)) fun e he => h.live k e he

private theorem step_history {name : String} {s t : Shared ι κ} {a : Event ι κ}
    (hs : step name s a = some t) :
    (∀ e ∈ s.singles, e ∈ t.singles) ∧ ∀ e ∈ s.blocks, e ∈ t.blocks := by
  cases step_moves hs with
  | counted _ => exact ⟨fun e he => List.mem_cons_of_mem _ he,fun e he => he⟩
  | refused => exact ⟨fun e he => he,fun e he => he⟩
  | granted _ _ => exact ⟨fun e he => he,fun e he => List.mem_cons_of_mem _ he⟩
  | full _ => exact ⟨fun e he => he,fun e he => he⟩
  | cached _ => exact ⟨fun e he => he,fun e he => List.mem_cons_of_mem _ he⟩

private theorem bad_segment {name : String} (s : Shared ι κ) (a : Event ι κ) (t : Shared ι κ)
    (h : Apart name s) (hs : step name s a = some t) (ht : Disjoint t) :
    SegmentClear name s a := by
  cases step_moves hs with
  | counted _ => trivial
  | refused => trivial
  | @granted k _ _ =>
    intro _ _
    by_contra hlast
    obtain ⟨i,hi⟩ := h.last (Bool.not_eq_false _ ▸ hlast)
    exact ht i k _ hi List.mem_cons_self
  | full hnone =>
    intro _ hsome
    rw [key_shared,hnone] at hsome
    cases hsome
  | cached hl =>
    intro hlow
    rw [hl] at hlow
    cases hlow

/-- For every starting value and every order of whole calls by any number of
instances of both classes: the two classes returned no common number exactly when no
segment was taken while the counter was last moved by `incrementAndGet`. -/
theorem disjoint_iff_segments_clear (name : String) (redis : String → Int)
    (hr : Long.InRange (redis (RedisSequence.sequenceKey name))) (as : List (Event ι κ))
    (s : Shared ι κ) (h : exec (step name) (boot redis) as = some s) :
    Disjoint s ↔ StepsMeet (step name) (SegmentClear name) (boot redis) as := by
  constructor
  · intro hd
    have hall : Always (step name) Disjoint (boot redis : Shared ι κ) as :=
      always_of_last (fun s a t hs ht i k n hn hb =>
        ht i k n ((step_history hs).1 _ hn) ((step_history hs).2 _ hb)) h hd
    exact hall.stepsMeet step_apart bad_segment (boot_apart name redis hr) h
  · intro hok
    exact (exec_invariant step_apart (boot_apart name redis hr) hok h).disjoint

/-- One `RedisSequence` call, then the first `NumberCacheSequence` call: both return 1. -/
theorem order_no_returned_twice :
    ∃ s : Shared Nat Nat, exec (step "order-no") (boot fun _ => 0) [.single 0,.block 0] = some s ∧
      s.singles = [(0,1)] ∧ s.blocks = [(0,1)] ∧ ¬ Disjoint s := by
  refine ⟨_,rfl,rfl,rfl,fun h => ?_⟩
  exact h 0 0 1 (by decide) (by decide)

theorem disjoint_segment_first :
    ∃ s : Shared Nat Nat, exec (step "order-no") (boot fun _ => 41)
        [.block 0,.single 0,.block 0,.single 1] = some s ∧
      s.singles = [(1,143),(0,142)] ∧ s.blocks = [(0,42),(0,41)] ∧ Disjoint s := by
  refine ⟨_,rfl,rfl,rfl,?_⟩
  refine (disjoint_iff_segments_clear "order-no" (fun _ => 41) (by decide)
    [.block 0,.single 0,.block 0,.single 1] _ rfl).mpr ⟨fun _ _ => rfl,fun t ht => ?_⟩
  cases ht
  refine ⟨trivial,fun t ht => ?_⟩
  cases ht
  refine ⟨fun hl => absurd hl (by decide),fun t ht => ?_⟩
  cases ht
  exact ⟨trivial,fun _ _ => trivial⟩

end CloudWeb.Sequence.SharedCounter
