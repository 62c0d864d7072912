import CloudWeb.Sequence.SnowFlakeSequence

/-! What one `SnowFlakeSequence` does within a millisecond and between two: its sequence
numbers leave no gap, it spins only when a millisecond is used up, and what it does about
a clock that runs backwards before and inside the spin. -/
namespace CloudWeb.Sequence.SnowFlakeSequence
open Java Foundation SnowFlake

/-- `next()` enters `getNextMill` after this first reading. -/
def Spins (g : SnowFlake) (currStmp : Int64) : Prop :=
  currStmp = g.lastStmp ∧ (g.sequence + 1) &&& MAX_SEQUENCE = 0

/-- The sequence numbers issued with timestamp `t`, newest first. -/
def numbersAt (t : Int64) (issued : List Issue) : List Nat :=
  (issued.filter fun e => e.stmp = t).map fun e => bits e.sequence

section Call
variable {g : SnowFlake} {lastStmp mill c : Int64} {pre clock rest : List Int64}

private theorem getNextMill_append (hp : ∀ r ∈ pre, r ≤ lastStmp) (clock : List Int64) :
    getNextMill lastStmp (pre ++ clock) = getNextMill lastStmp clock := by
  induction pre with
  | nil => rfl
  | cons r pre ih =>
    rw [List.cons_append,getNextMill,if_pos (hp r List.mem_cons_self)]
    exact ih fun r hr => hp r (List.mem_cons_of_mem _ hr)

theorem next_spins (h : Spins g c) (hp : ∀ r ∈ pre, r ≤ g.lastStmp) (hm : g.lastStmp < mill) :
    g.next (c :: (pre ++ mill :: rest)) =
      some ((.ok (g.compose mill 0),{ g with sequence := 0, lastStmp := mill }),rest) := by
  obtain ⟨rfl,hz⟩ := h
  have hs : getNextMill g.lastStmp (pre ++ mill :: rest) = some (mill,rest) := by
    rw [getNextMill_append hp,getNextMill,if_neg (Int64.not_le.mpr hm)]
  rw [next,if_neg Int64.lt_irrefl,if_pos rfl,if_pos hz,hs,hz]
  rfl

/-- Until then it goes on spinning. -/
theorem next_spins_on (h : Spins g c) (hp : ∀ r ∈ pre, r ≤ g.lastStmp) : g.next (c :: pre) = none := by
  obtain ⟨rfl,hz⟩ := h
  have hs := getNextMill_append hp []
  rw [List.append_nil] at hs
  rw [next,if_neg Int64.lt_irrefl,if_pos rfl,if_pos hz,hs]
  rfl

/-- Any other call is over after its first reading. -/
theorem next_of_not_spins (h : ¬ Spins g c) (clock : List Int64) :
    ∃ out, g.next (c :: clock) = some (out,clock) := by
  rw [next]
  split
  · exact ⟨_,rfl⟩
  · split
    · next he =>
      rw [if_neg fun hz => h ⟨he,hz⟩]
      exact ⟨_,rfl⟩
    · exact ⟨_,rfl⟩

theorem next_error_iff {e : RuntimeException} {g' : SnowFlake} :
    g.next (c :: clock) = some ((.error e,g'),rest) ↔
      c < g.lastStmp ∧ e = clockMovedBackwards ∧ g' = g ∧ rest = clock := by
  constructor
  · intro h
    simp only [next] at h
    split at h
    · next hc =>
      cases h
      exact ⟨hc,rfl,rfl,rfl⟩
    · split at h
      · split at h
        · obtain ⟨_,_,hi⟩ := Option.map_eq_some_iff.mp h
          cases hi
        · cases h
      · cases h
  · rintro ⟨hc,rfl,rfl,rfl⟩
    rw [next,if_pos hc]

end Call

/-- The numbers of every millisecond up to the last one, which `sequence` counts. Before
the first call there is none, and `lastStmp` is no reading. -/
structure Dense (s : Trace) : Prop where
  sequence : bits s.gen.sequence < 2^12
  latest : ∀ e ∈ s.issued, e.stmp ≤ s.gen.lastStmp
  past : ∀ t, t ≠ s.gen.lastStmp → ∃ k ≤ 4096, numbersAt t s.issued = (List.range k).reverse
  current : numbersAt s.gen.lastStmp s.issued = (List.range (bits s.gen.sequence+1)).reverse ∨
    (s.issued = [] ∧ s.gen.lastStmp = -1)

section Runs
variable {s t : Trace} {readings : List Int64}

private theorem numbersAt_cons_self (e : Issue) (issued : List Issue) :
    numbersAt e.stmp (e :: issued) = bits e.sequence :: numbersAt e.stmp issued := by
  simp [numbersAt]

private theorem numbersAt_cons_of_ne {t : Int64} {e : Issue} (h : e.stmp ≠ t) (issued : List Issue) :
    numbersAt t (e :: issued) = numbersAt t issued := by
  simp [numbersAt,h]

private theorem numbersAt_eq_nil {t : Int64} {issued : List Issue} (h : ∀ e ∈ issued, e.stmp < t) :
    numbersAt t issued = [] := by
  rw [numbersAt,List.map_eq_nil_iff,List.filter_eq_nil_iff]
  intro e he hd
  exact Int64.lt_irrefl (of_decide_eq_true hd ▸ h e he)

private theorem Dense.numbers (h : Dense s) (t : Int64) :
    ∃ k ≤ 4096, numbersAt t s.issued = (List.range k).reverse := by
  by_cases ht : t = s.gen.lastStmp
  · subst ht
    rcases h.current with hc | ⟨hc,_⟩
    · exact ⟨_,h.sequence,hc⟩
    · exact ⟨0,Nat.zero_le _,by rw [hc]; rfl⟩
  · exact h.past t ht

private theorem step_dense (s : Trace) (readings : List Int64) (t : Trace) (h : Dense s)
    (hp : ∀ r ∈ readings, 0 ≤ r) (hs : step s readings = some t) : Dense t := by
  rcases step_cases hs with rfl | ⟨c,q,rfl,hc,⟨rfl,rfl,hn⟩ | ⟨hlt,rfl⟩⟩
  · exact h
  · -- the next number of the same millisecond
    obtain ⟨hv,hlt⟩ := masked_succ h.sequence hn
    refine ⟨hv ▸ hlt,fun e he => ?_,fun t ht => ?_,.inl ?_⟩
    · rcases List.mem_cons.mp he with rfl | he
      · exact Int64.le_refl _
      · exact h.latest e he
    · dsimp only
      rw [numbersAt_cons_of_ne (Ne.symm ht)]
      exact h.past t ht
    · dsimp only
      rcases h.current with hcur | ⟨_,hfresh⟩
      · rw [numbersAt_cons_self ⟨_,s.gen.lastStmp,_⟩,hcur,hv,List.range_succ (n := bits s.gen.sequence+1),
          List.reverse_append]
        rfl
      · have h0 := hp _ hc
        rw [hfresh] at h0
        exact absurd h0 (by decide)
  · -- a later millisecond starts over
    refine ⟨show bits 0 < 2^12 by decide,fun e he => ?_,fun t ht => ?_,.inl ?_⟩
    · rcases List.mem_cons.mp he with rfl | he
      · exact Int64.le_refl _
      · exact Int64.le_trans (h.latest e he) (Int64.le_of_lt hlt)
    · dsimp only
      rw [numbersAt_cons_of_ne (Ne.symm ht)]
      exact h.numbers t
    · dsimp only
      rw [numbersAt_cons_self ⟨_,c,_⟩,numbersAt_eq_nil fun e he => Int64.lt_of_le_of_lt (h.latest e he) hlt]
      rfl

/-- A full millisecond is the only one that makes a call spin. -/
theorem Dense.full (h : Dense s) {c : Int64} (h0 : 0 ≤ c) (hc : Spins s.gen c) :
    numbersAt s.gen.lastStmp s.issued = (List.range 4096).reverse := by
  obtain ⟨rfl,hz⟩ := hc
  have hlast : bits s.gen.sequence+1 = 4096 := (masked_eq_zero h.sequence).mp hz
  rcases h.current with hcur | ⟨_,hfresh⟩
  · rw [hcur,hlast]
  · rw [hfresh] at h0
    exact absurd h0 (by decide)

end Runs

/-- Every run of a new instance over non-negative readings. Each id is made of its
millisecond and carries its sequence number; in each millisecond these are 0, 1, 2, … in
order of issue; a call spins only once all 4096 are out, and then returns the first later
reading with 0; all other calls are over after one reading. -/
theorem no_number_wasted (d m : Int64) (g : SnowFlake) (hg : new d m = .ok g) (calls : List (List Int64))
    (hp : ∀ rs ∈ calls, ∀ r ∈ rs, 0 ≤ r) (s : Trace) (h : exec step ⟨g,[]⟩ calls = some s) :
    (∀ e ∈ s.issued, 0 ≤ e.stmp ∧ e.id = g.compose e.stmp e.sequence ∧ e.id &&& MAX_SEQUENCE = e.sequence) ∧
    (∀ t, ∃ k ≤ 4096, (numbersAt t s.issued).reverse = List.range k) ∧
    (∀ c, ¬ Spins s.gen c → ∀ clock, ∃ out, s.gen.next (c :: clock) = some (out,clock)) ∧
    ∀ c, 0 ≤ c → Spins s.gen c →
      (numbersAt s.gen.lastStmp s.issued).reverse = List.range 4096 ∧
      ∀ pre mill rest, (∀ r ∈ pre, r ≤ s.gen.lastStmp) → s.gen.lastStmp < mill →
        s.gen.next (c :: (pre ++ mill :: rest)) =
          some ((.ok (s.gen.compose mill 0),{ s.gen with sequence := 0, lastStmp := mill }),rest) := by
  obtain ⟨rfl,_,_⟩ := new_ok hg
  have hboot : Dense ⟨{ datacenterId := d, machineId := m },[]⟩ :=
    ⟨show bits 0 < 2^12 by decide,fun _ he => absurd he List.not_mem_nil,
      fun _ _ => ⟨0,Nat.zero_le _,rfl⟩,.inr ⟨rfl,rfl⟩⟩
  have hdense : Dense s := exec_invariant step_dense hboot (stepsMeet_of_forall hp _) h
  have hordered := run_ordered (p := fun r => 0 ≤ r) (show bits 0 < 2^12 by decide) hp h
  refine ⟨fun e he => ?_,fun t => ?_,fun c hc clock => next_of_not_spins hc clock,fun c h0 hc => ⟨?_,?_⟩⟩
  · obtain ⟨hid,hq,hpos⟩ := hordered.made e he
    exact ⟨hpos,hid,hid ▸ compose_sequence _ e.stmp hq⟩
  · obtain ⟨k,hk,hn⟩ := hdense.numbers t
    exact ⟨k,hk,by rw [hn,List.reverse_reverse]⟩
  · rw [hdense.full h0 hc,List.reverse_reverse]
  · exact fun pre mill rest hpre hm => next_spins hc hpre hm

/-- Two ids at 5, a rollback that throws, 5 again, a jump to 9. -/
theorem no_number_wasted_over_rollback :
    ∃ s, exec step ⟨{ datacenterId := 1, machineId := 1 },[]⟩ [[5],[5],[4],[5],[9]] = some s ∧
      (∀ e ∈ s.issued, e.id &&& MAX_SEQUENCE = e.sequence) ∧
      (∀ t, ∃ k ≤ 4096, (numbersAt t s.issued).reverse = List.range k) ∧
      (numbersAt 5 s.issued).reverse = [0,1,2] := by
  have hp : ∀ rs ∈ [[5],[5],[4],[5],[(9 : Int64)]], ∀ r ∈ rs, 0 ≤ r := by
    intro rs hrs r hr
    simp only [List.mem_cons,List.not_mem_nil,or_false] at hrs
    rcases hrs with rfl | rfl | rfl | rfl | rfl <;> rw [List.mem_singleton.mp hr] <;> decide
  have hrun := no_number_wasted 1 1 { datacenterId := 1, machineId := 1 } rfl _ hp _ rfl
  exact ⟨_,rfl,fun e he => (hrun.1 e he).2.2,hrun.2.1,by decide⟩

/-- A call throws exactly when its first reading is below `lastStmp`, and then changes
nothing. It reads the clock again only to spin, and smaller readings inside the spin are
passed over: the call neither throws nor returns before a reading exceeds `lastStmp`. -/
theorem rollback_refused_unless_spinning (g : SnowFlake) (c : Int64) (clock : List Int64) :
    (∀ e g' rest, g.next (c :: clock) = some ((.error e,g'),rest) ↔
      c < g.lastStmp ∧ e = clockMovedBackwards ∧ g' = g ∧ rest = clock) ∧
    (¬ Spins g c → ∃ out, g.next (c :: clock) = some (out,clock)) ∧
    (Spins g c → (∀ r ∈ clock, r ≤ g.lastStmp) → g.next (c :: clock) = none) ∧
    (Spins g c → ∀ pre mill rest, clock = pre ++ mill :: rest → (∀ r ∈ pre, r ≤ g.lastStmp) →
      g.lastStmp < mill → g.next (c :: clock) =
        some ((.ok (g.compose mill 0),{ g with sequence := 0, lastStmp := mill }),rest)) := by
  refine ⟨fun _ _ _ => next_error_iff,fun hc => next_of_not_spins hc clock,
    fun hc hp => next_spins_on hc hp,fun hc => ?_⟩
  rintro pre mill rest rfl hp hm
  exact next_spins hc hp hm

private theorem step_same {s : Trace} {q : Int64} (hq : (s.gen.sequence + 1) &&& MAX_SEQUENCE = q)
    (hn : q ≠ 0) :
    step s [s.gen.lastStmp] = some ⟨{ s.gen with sequence := q },
      ⟨s.gen.compose s.gen.lastStmp q,s.gen.lastStmp,q⟩ :: s.issued⟩ := by
  rw [step,next,if_neg Int64.lt_irrefl,if_pos rfl,hq,if_neg hn]
  rfl

private theorem exec_same {g : SnowFlake} {c : Int64} (hg : g.lastStmp < c) (k : Nat) (hk : k < 2^12) :
    ∃ s, exec step ⟨g,[]⟩ (List.replicate (k+1) [c]) = some s ∧ s.gen.lastStmp = c ∧
      bits s.gen.sequence = k := by
  -- a further call takes the next sequence number
  induction k with
  | zero =>
    refine ⟨Trace.later ⟨g,[]⟩ c,?_,rfl,rfl⟩
    rw [Nat.zero_add,List.replicate_one,exec_cons,step_later (s := ⟨g,[]⟩) hg]
    rfl
  | succ k ih =>
    obtain ⟨s,hs,rfl,hq⟩ := ih (by omega)
    have hlt : bits s.gen.sequence < 2^12 := by omega
    have hn : (s.gen.sequence + 1) &&& MAX_SEQUENCE ≠ 0 := by
      rw [ne_eq,masked_eq_zero hlt]
      omega
    have hrun := exec_concat_iff.mpr ⟨s,hs,step_same rfl hn⟩
    rw [← List.replicate_succ'] at hrun
    exact ⟨_,hrun,rfl,(masked_succ hlt hn).1.trans (congrArg (· + 1) hq)⟩

/-- The 4096 ids of millisecond 7 are out; the next call reads 7, 6 and 8, and returns. -/
theorem rollback_waited_out :
    ∃ g s, new 1 1 = .ok g ∧ exec step ⟨g,[]⟩ (List.replicate 4096 [7]) = some s ∧
      6 < s.gen.lastStmp ∧ ∃ id g', s.gen.next [7,6,8] = some ((.ok id,g'),[]) ∧ g' ≠ s.gen := by
  obtain ⟨s,hs,hl,hq⟩ := exec_same (g := { datacenterId := 1, machineId := 1 }) (c := 7)
    (by decide) 4095 (by decide)
  have hspins : Spins s.gen 7 := ⟨hl.symm,(masked_eq_zero (by omega)).mpr (by omega)⟩
  have hn : s.gen.next [7,6,8] = some ((.ok (s.gen.compose 8 0),
      { s.gen with sequence := 0, lastStmp := 8 }),[]) := by
    have hpre : ∀ r ∈ [(6 : Int64)], r ≤ s.gen.lastStmp := by
      intro r hr
      rw [List.mem_singleton.mp hr,hl]
      decide
    exact next_spins hspins hpre (by rw [hl]; decide)
  refine ⟨_,s,rfl,hs,by rw [hl]; decide,_,_,hn,fun he => ?_⟩
  have hmill : (8 : Int64) = 7 := (congrArg lastStmp he).trans hl
  exact absurd hmill (by decide)

end CloudWeb.Sequence.SnowFlakeSequence
