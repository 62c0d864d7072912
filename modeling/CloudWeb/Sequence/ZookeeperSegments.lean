import CloudWeb.Sequence.ZookeeperMoves

/-! What `ZookeeperSequencePro` instances keep as long as no fetch extends a cached
interval over numbers that another instance has reserved since. Such runs are runs of
the abstract generator; seats are instances here and one common seat for a sole user. -/
namespace CloudWeb.Sequence.ZookeeperSequencePro
open Java Foundation
variable {ι κ : Type*} [DecidableEq ι] [DecidableEq κ]

/-- A fetch starts the cache afresh, or nobody else has reserved a number from `curNum` on. -/
def Clear (s : Cluster ι) (i : ι) (q : ZookeeperSequencePro) : Prop :=
  q.curNum = 0 ∨ ∀ r ∈ s.reserved, r.owner ≠ i → r.hi ≤ q.curNum

/-- The condition on one step: a fetch has room, and one that succeeds is clear. -/
def Uncontested (strings : Strings) (s : Cluster ι) : Label ι → Prop
  | .construct i fault => s.inst i = .idle → Room strings s fault
  | .next i fault =>
    (s.inst i).WhenAlive fun q _ =>
      q.low = true → Room strings s fault ∧ (fault = none → Clear s i q)
  | .task i fault =>
    (s.inst i).WhenAlive fun q pending =>
      0 < pending → Room strings s fault ∧ (fault = none → Clear s i q)
  | .crash _ none => True
  | .crash _ (some fault) => Room strings s (some fault)

instance (s : Cluster ι) (i : ι) (q : ZookeeperSequencePro) : Decidable (Clear s i q) :=
  inferInstanceAs (Decidable (_ ∨ ∀ r ∈ s.reserved, _))

instance (strings : Strings) (s : Cluster ι) (a : Label ι) : Decidable (Uncontested strings s a) :=
  match a with
  | .construct i _ => inferInstanceAs (Decidable (s.inst i = .idle → Room strings s _))
  | .next i _ => inferInstanceAs (Decidable ((s.inst i).WhenAlive _))
  | .task i _ => inferInstanceAs (Decidable ((s.inst i).WhenAlive _))
  | .crash _ none => isTrue trivial
  | .crash _ (some fault) => inferInstanceAs (Decidable (Room strings s (some fault)))

/-- A new instance takes a seat that nobody alive has. -/
def Seated (seat : ι → κ) (s : Cluster ι) : Label ι → Prop
  | .construct i _ => s.inst i = .idle → ∀ j q p, s.inst j = .alive q p → j ≠ i → seat j ≠ seat i
  | _ => True

/-- The cache of one instance against the node's value `v` and the reservations. While
`curNum` is 0 the next fetch starts afresh and nothing has to hold of it. -/
structure PartyOk (start v : Int) (reserved : List (Reservation ι Int)) (i : ι)
    (q : ZookeeperSequencePro) (cursor : Int) : Prop where
  above : start+PERIOD ≤ q.maxNum
  below : q.maxNum ≤ v
  started : q.curNum ≠ 0 → start ≤ q.curNum ∧ cursor ≤ q.curNum ∧ q.curNum ≤ v
  own : q.curNum ≠ 0 → ∀ n, q.curNum ≤ n → n < q.maxNum → Owned reserved i n

/-- A cache whose next number may be returned. -/
structure Ready (start v : Int) (reserved : List (Reservation ι Int)) (i : ι)
    (q : ZookeeperSequencePro) (cursor : Int) : Prop where
  above : start+PERIOD ≤ q.maxNum
  below : q.maxNum ≤ v
  started : start ≤ q.curNum ∧ cursor ≤ q.curNum ∧ q.curNum < q.maxNum
  own : ∀ n, q.curNum ≤ n → n < q.maxNum → Owned reserved i n

/-- A cluster whose node holds `v`, and the abstract generator it implements. -/
structure Matches (strings : Strings) (seat : ι → κ) (start v : Int) (s : Cluster ι)
    (d : Dispenser ι κ Int) : Prop extends Counted strings start v s where
  ledger : d.ledger = s.reserved
  issued : d.issued = s.returned
  passed : ∀ k, d.cursor k ≤ v
  parties : ∀ i q p, s.inst i = .alive q p → PartyOk start v s.reserved i q (d.cursor (seat i))
  seats : ∀ i j q p q' p', s.inst i = .alive q p → s.inst j = .alive q' p' → i ≠ j → seat i ≠ seat j

section Party
variable {start v v' cursor : Int} {rs rs' : List (Reservation ι Int)} {i : ι}
  {q : ZookeeperSequencePro}

omit [DecidableEq ι] in
theorem PartyOk.mono (h : PartyOk start v rs i q cursor) (hv : v ≤ v')
    (hr : ∀ o n, Owned rs o n → Owned rs' o n) : PartyOk start v' rs' i q cursor where
  above := h.above
  below := h.below.trans hv
  started hc := ⟨(h.started hc).1,(h.started hc).2.1,(h.started hc).2.2.trans hv⟩
  own hc n hl hh := hr _ n (h.own hc n hl hh)

omit [DecidableEq ι] in
theorem PartyOk.refreshed (h : PartyOk start v rs i q cursor) (hs : start ≤ v) (hc : cursor ≤ v) :
    PartyOk start v rs i (q.refreshed v) cursor := by
  rcases refreshed_cases q v with ⟨_,hr⟩ | ⟨_,hr⟩
  · rw [hr]
    exact ⟨h.above,h.below,fun _ => ⟨hs,hc,le_refl _⟩,
      fun _ n hl hh => absurd (hl.trans_lt hh) (not_lt.mpr h.below)⟩
  · rwa [hr]

omit [DecidableEq ι] in
private theorem Ready.partyOk (h : Ready start v rs i q cursor) : PartyOk start v rs i q cursor :=
  ⟨h.above,h.below,fun _ => ⟨h.started.1,h.started.2.1,h.started.2.2.le.trans h.below⟩,fun _ => h.own⟩

omit [DecidableEq ι] in
private theorem PartyOk.ready (h : PartyOk start v rs i q cursor) (hs : Long.InRange start)
    (hv : Long.InRange v) (hl : q.low = false) : Ready start v rs i q cursor := by
  simp only [low,Bool.or_eq_false_iff,decide_eq_false_iff_not] at hl
  obtain ⟨hc,hlt⟩ := hl
  have hP : PERIOD = 1000 := rfl
  have ha := h.above
  have hb := h.below
  rw [toLong_eq (hs.between hv (by omega) (by omega))] at hlt
  exact ⟨ha,hb,⟨(h.started hc).1,(h.started hc).2.1,by omega⟩,h.own hc⟩

omit [DecidableEq ι] in
theorem Ready.take (h : Ready start v rs i q cursor) (hs : Long.InRange start)
    (hv : Long.InRange v) :
    q.take.2.curNum = q.curNum+1 ∧ PartyOk start v rs i q.take.2 (q.curNum+1) := by
  obtain ⟨h1,_,h3⟩ := h.started
  have hb := h.below
  have he : toLong (q.curNum+1) = q.curNum+1 := toLong_eq (hs.between hv (by omega) (by omega))
  refine ⟨he,h.above,hb,fun _ => ?_,fun _ n hl hh => h.own n ?_ hh⟩
  · simp only [ZookeeperSequencePro.take,he]
    omega
  · simp only [ZookeeperSequencePro.take,he] at hl
    omega

end Party

section Simulation
variable {strings : Strings} {seat : ι → κ} {start v : Int} {s t : Cluster ι} {d : Dispenser ι κ Int}
  {i : ι}

omit [DecidableEq ι] [DecidableEq κ] in
theorem Matches.reserve (h : Matches strings seat start v s d) (hroom : v+PERIOD ≤ Long.MAX_VALUE) (i : ι) :
    Matches strings seat start (v+PERIOD) (s.reserve i v)
      { d with ledger := ⟨i,v,v+PERIOD⟩ :: d.ledger } := by
  have hP : PERIOD = 1000 := rfl
  refine ⟨h.toCounted.reserve hroom i,congrArg _ h.ledger,h.issued,fun k => ?_,fun j q p hj => ?_,h.seats⟩
  · exact (h.passed k).trans (by omega)
  · exact (h.parties j q p hj).mono (by omega) fun _ _ ho => ho.mono _

omit [DecidableEq κ] in
theorem Matches.enter (h : Matches strings seat start v s d) {ph : Phase}
    (hok : ∀ q p, ph = .alive q p → s.node ≠ none ∧
      PartyOk start v s.reserved i q (d.cursor (seat i)) ∧
      ∀ j q p, s.inst j = .alive q p → j ≠ i → seat j ≠ seat i) :
    Matches strings seat start v (s.enter i ph) d := by
  refine ⟨h.toCounted.enter fun q p hq => (hok q p hq).1,h.ledger,h.issued,h.passed,fun j q p hj => ?_,
    fun j k q p q' p' hj hk hjk => ?_⟩
  · rcases alive_enter hj with ⟨rfl,hq⟩ | ⟨_,hj⟩
    · exact (hok q p hq).2.1
    · exact h.parties j q p hj
  · rcases alive_enter hj with ⟨rfl,hq⟩ | ⟨_,hj'⟩
    · rcases alive_enter hk with ⟨rfl,_⟩ | ⟨hkj,hk'⟩
      · exact absurd rfl hjk
      · exact ((hok q p hq).2.2 k q' p' hk' hkj).symm
    · rcases alive_enter hk with ⟨rfl,hq⟩ | ⟨_,hk'⟩
      · exact (hok q' p' hq).2.2 j q p hj' hjk
      · exact h.seats j k q p q' p' hj' hk' hjk

theorem Matches.returns (h : Matches strings seat start v s d) (hs : Long.InRange start)
    {q₀ q : ZookeeperSequencePro} {p₀ : Nat} (hi : s.inst i = .alive q₀ p₀)
    (hq : Ready start v s.reserved i q (d.cursor (seat i))) (p : Nat) :
    ∃ e, Relation.ReflTransGen (Dispenser.Step seat) d e ∧
      Matches strings seat start v (s.returns i q p) e := by
  obtain ⟨_,htake⟩ := hq.take hs (stored_inRange h.node)
  obtain ⟨_,hahead,hlt⟩ := hq.started
  have hbelow := hq.below
  have hnode := h.exists_node i q₀ p₀ hi
  -- one abstract issue moves the cursor of the seat of `i` past `curNum`
  refine ⟨_,.single (.issue d i q.curNum (q.curNum+1) (h.ledger ▸ hq.own _ (le_refl _) hlt) hahead
    (by omega)),h.toCounted.returns hnode i q p,h.ledger,congrArg _ h.issued,fun k => ?_,fun j q' p' hj => ?_,
    fun j k q' p' q'' p'' hj hk hjk => ?_⟩
  · by_cases hk : k = seat i
    · subst hk
      simp only [Function.update_self]
      omega
    · simpa only [Function.update_of_ne hk] using h.passed k
  · rcases alive_returns hj with ⟨rfl,rfl⟩ | ⟨hji,hj⟩
    · dsimp only
      rw [Function.update_self]
      exact htake
    · have hseat := h.seats j i q' p' q₀ p₀ hj hi hji
      dsimp only
      rw [Function.update_of_ne hseat]
      exact h.parties j q' p' hj
  · have halive {l : ι} {r : ZookeeperSequencePro} {m : Nat} (hl : (s.returns i q p).inst l = .alive r m) :
        ∃ r m, s.inst l = .alive r m := by
      rcases alive_returns hl with ⟨rfl,_⟩ | ⟨_,hl⟩
      · exact ⟨q₀,p₀,hi⟩
      · exact ⟨r,m,hl⟩
    obtain ⟨_,_,hj⟩ := halive hj
    obtain ⟨_,_,hk⟩ := halive hk
    exact h.seats j k _ _ _ _ hj hk hjk

omit [DecidableEq ι] [DecidableEq κ] in
private theorem Matches.ready (h : Matches strings seat start v s d) {q : ZookeeperSequencePro}
    (hclear : q.curNum ≠ 0 → Clear s i q)
    (hstart : q.curNum ≠ 0 → start ≤ q.curNum ∧ d.cursor (seat i) ≤ q.curNum ∧ q.curNum ≤ v) :
    Ready start (v+PERIOD) (s.reserve i v).reserved i { q.refreshed v with maxNum := v+PERIOD }
      (d.cursor (seat i)) := by
  have hP : PERIOD = 1000 := rfl
  have hrisen := h.risen
  have hpassed := h.passed (seat i)
  have hseg (n : Int) (hl : v ≤ n) (hh : n < v+PERIOD) : Owned (s.reserve i v).reserved i n :=
    Owned.head ⟨hl,hh⟩
  rcases refreshed_cases q v with ⟨_,hr⟩ | ⟨hc,hr⟩
  · rw [hr]
    exact ⟨by dsimp only; omega,le_refl _,⟨hrisen,hpassed,by dsimp only; omega⟩,hseg⟩
  · obtain ⟨h1,h2,h3⟩ := hstart hc
    rw [hr]
    refine ⟨by dsimp only; omega,le_refl _,⟨h1,h2,by dsimp only; omega⟩,fun n hl hh => ?_⟩
    by_cases hn : n < v
    · -- reserved before, by nobody else: a foreign segment ends at `curNum`
      obtain ⟨r,hr,hrn⟩ := h.cover n (h1.trans hl) hn
      have ho : r.owner = i := by
        by_contra ho
        have hforeign := (hclear hc).resolve_left hc r hr ho
        exact absurd (hrn.2.trans_le hforeign) (not_lt.mpr hl)
      exact Owned.mono _ ⟨r,hr,ho,hrn⟩
    · exact hseg n (not_lt.mp hn) hh

omit [DecidableEq ι] in
/-- A fetch that is clear if it succeeds. Whatever it does to the node, it leaves a cache
as good as before; one that returns leaves a cache whose next number may be returned. -/
theorem Matches.fetched (h : Matches strings seat start v s d) {q q' : ZookeeperSequencePro}
    {fault : Option Fault} {out : Except DistributedSequenceException Unit} {s' : Cluster ι}
    (hf : Fetched s i v q fault out q' s') (hclear : fault = none → Clear s i q)
    (hnone : s.node = none → q.curNum = 0)
    (hstart : q.curNum ≠ 0 → start ≤ q.curNum ∧ d.cursor (seat i) ≤ q.curNum ∧ q.curNum ≤ v) :
    ∃ v' e, Relation.ReflTransGen (Dispenser.Step seat) d e ∧ Matches strings seat start v' s' e ∧
      e.cursor = d.cursor ∧
      (PartyOk start v s.reserved i q (d.cursor (seat i)) →
        PartyOk start v' s'.reserved i q' (d.cursor (seat i))) ∧
      (out = .ok () → s'.node ≠ none ∧ Ready start v' s'.reserved i q' (d.cursor (seat i))) := by
  have hP : PERIOD = 1000 := rfl
  have hkept (hp : PartyOk start v s.reserved i q (d.cursor (seat i))) (hq : q' = q ∨ q' = q.refreshed v) :
      PartyOk start v s.reserved i q' (d.cursor (seat i)) := by
    rcases hq with rfl | rfl
    · exact hp
    · exact hp.refreshed h.risen (h.passed _)
  have habove : ∀ r ∈ d.ledger, r.hi ≤ v := h.ledger ▸ fun r hr => (h.top r hr).1
  cases hf with
  | unwritten hq => exact ⟨v,d,.refl,h,rfl,fun hp => hkept hp hq,fun ho => nomatch ho⟩
  | overlooked _ hroom =>
    refine ⟨_,_,.single (.reserve d ⟨i,v,v+PERIOD⟩ habove),h.reserve hroom i,rfl,fun hp => ?_,
      fun ho => nomatch ho⟩
    exact (hkept hp (.inr rfl)).mono (by omega) fun _ _ ho => ho.mono _
  | written hsure hroom =>
    have hready := h.ready (i := i) (fun hc => hclear (hsure.resolve_left fun hn => hc (hnone hn))) hstart
    exact ⟨_,_,.single (.reserve d ⟨i,v,v+PERIOD⟩ habove),h.reserve hroom i,rfl,fun _ => hready.partyOk,
      fun _ => ⟨Option.some_ne_none _,hready⟩⟩

omit [DecidableEq ι] in
private theorem Matches.fetched_alive (h : Matches strings seat start v s d) {q q' : ZookeeperSequencePro}
    {p : Nat}
    (hi : s.inst i = .alive q p) {fault : Option Fault} {out : Except DistributedSequenceException Unit}
    {s' : Cluster ι} (hf : Fetched s i v q fault out q' s') (hclear : fault = none → Clear s i q) :
    ∃ v' e, Relation.ReflTransGen (Dispenser.Step seat) d e ∧ Matches strings seat start v' s' e ∧
      PartyOk start v' s'.reserved i q' (e.cursor (seat i)) ∧
      (out = .ok () → Ready start v' s'.reserved i q' (e.cursor (seat i))) := by
  have hp := h.parties i q p hi
  have hnode := h.exists_node i q p hi
  obtain ⟨v',e,he,hm,hcur,hkeep,hready⟩ := h.fetched hf hclear (fun hn => absurd hn hnode) hp.started
  exact ⟨v',e,he,hm,hcur ▸ hkeep hp,fun ho => hcur ▸ (hready ho).2⟩

omit [DecidableEq ι] in
private theorem uncontested_hasRoom {a : Label ι} (hok : Uncontested strings s a) :
    HasRoom strings s a := by
  cases a with
  | construct i fault => exact hok
  | next i fault =>
    exact Phase.whenAlive_iff.mpr fun q p hi hl => (Phase.whenAlive_iff.mp hok q p hi hl).1
  | task i fault =>
    exact Phase.whenAlive_iff.mpr fun q p hi hp => (Phase.whenAlive_iff.mp hok q p hi hp).1
  | crash i inFetch =>
    cases inFetch with
    | none => trivial
    | some fault => exact Phase.whenAlive_iff.mpr fun _ _ _ _ => hok

/-- Every uncontested step is matched by abstract steps. -/
theorem step_matches (hs : Long.InRange start) (s : Cluster ι) (a : Label ι) (t : Cluster ι)
    (d : Dispenser ι κ Int) (h : ∃ v, Matches strings seat start v s d)
    (hok : Uncontested strings s a ∧ Seated seat s a) (hstep : step strings s a = some t) :
    ∃ e, Relation.ReflTransGen (Dispenser.Step seat) d e ∧ ∃ v, Matches strings seat start v t e := by
  obtain ⟨v,h⟩ := h
  obtain ⟨hok,hseat⟩ := hok
  -- the others sit elsewhere, also after a fetch
  have hseats {i : ι} {q q' : ZookeeperSequencePro} {p : Nat} {fault : Option Fault}
      {out : Except DistributedSequenceException Unit} {s' : Cluster ι} (hi : s.inst i = .alive q p)
      (hf : Fetched s i v q fault out q' s') (j : ι) (r : ZookeeperSequencePro) (m : Nat)
      (hj : s'.inst j = .alive r m) (hji : j ≠ i) : seat j ≠ seat i :=
    h.seats j i r m q p (hf.inst.1 ▸ hj) hi hji
  cases step_moves h.toCounted (uncontested_hasRoom hok) hstep with
  | @constructed i fault q s' hi hf =>
    obtain ⟨v',e,he,hm,hcur,_,hready⟩ := h.fetched hf (fun _ => .inl rfl) (fun _ => rfl)
      fun hn => absurd rfl hn
    obtain ⟨hsome,hready⟩ := hready rfl
    refine ⟨e,he,v',hm.enter fun q p hq => ?_⟩
    cases hq
    exact ⟨hsome,hcur ▸ hready.partyOk,fun j q p hj => hseat hi j q p (hf.inst.1 ▸ hj)⟩
  | stillborn hi hf =>
    obtain ⟨v',e,he,hm,_⟩ := h.fetched hf (fun _ => .inl rfl) (fun _ => rfl) fun hn => absurd rfl hn
    exact ⟨e,he,v',hm.enter fun q p hq => nomatch hq⟩
  | @cached i fault q p hi hl =>
    obtain ⟨e,he,hm⟩ := h.returns hs hi ((h.parties i q p hi).ready hs (stored_inRange h.node) hl) _
    exact ⟨e,he,v,hm⟩
  | @failed i fault q p err q' s' hi hl hf =>
    have hclear := (Phase.whenAlive_iff.mp hok q p hi hl).2
    obtain ⟨v',e,he,hm,hp,_⟩ := h.fetched_alive hi hf hclear
    refine ⟨e,he,v',hm.enter fun q p hq => ?_⟩
    cases hq
    exact ⟨hm.exists_node i _ _ (hf.inst.1 ▸ hi),hp,hseats hi hf⟩
  | @fetched i fault q p q' s' hi hl hf =>
    have hclear := (Phase.whenAlive_iff.mp hok q p hi hl).2
    obtain ⟨v',e,he,hm,_,hready⟩ := h.fetched_alive hi hf hclear
    obtain ⟨e',he',hm'⟩ := hm.returns hs (hf.inst.1 ▸ hi) (hready rfl) _
    exact ⟨e',he.trans he',v',hm'⟩
  | @task i fault q p out q' s' hi hf =>
    have hclear := (Phase.whenAlive_iff.mp hok q _ hi (Nat.succ_pos _)).2
    obtain ⟨v',e,he,hm,hp,_⟩ := h.fetched_alive hi hf hclear
    refine ⟨e,he,v',hm.enter fun q p hq => ?_⟩
    cases hq
    exact ⟨hm.exists_node i _ _ (hf.inst.1 ▸ hi),hp,hseats hi hf⟩
  | crash hi => exact ⟨d,.refl,v,h.enter fun q p hq => nomatch hq⟩
  | crashInFetch hi _ hf =>
    -- nothing local survives, so only the node matters
    obtain ⟨v',e,he,hm,_⟩ := h.fetched_alive hi hf fun hfault => nomatch hfault
    exact ⟨e,he,v',hm.enter fun q p hq => nomatch hq⟩

/-- What any uncontested run keeps: it is a sound run of the abstract generator. -/
def Refines (strings : Strings) (seat : ι → κ) (start : Int) (s : Cluster ι) : Prop :=
  ∃ d, Dispenser.Sound seat d ∧ ∃ v, Matches strings seat start v s d

theorem step_refines (hs : Long.InRange start) (s : Cluster ι) (a : Label ι) (t : Cluster ι)
    (h : Refines strings seat start s) (hok : Uncontested strings s a ∧ Seated seat s a)
    (hstep : step strings s a = some t) : Refines strings seat start t := by
  obtain ⟨d,hd,hm⟩ := h
  obtain ⟨e,he,hm'⟩ := step_matches hs s a t d hm hok hstep
  exact ⟨e,Dispenser.sound_run he hd,hm'⟩

omit [DecidableEq ι] [DecidableEq κ] in
theorem boot_refines {node : Option String} (hnode : stored strings node = some start) :
    Refines strings seat start (boot node) :=
  ⟨⟨[],fun _ => start,[]⟩,Dispenser.sound_empty _,start,
    { boot_counted hnode with
      ledger := rfl
      issued := rfl
      passed := fun _ => le_refl _
      parties := fun _ _ _ h => nomatch h
      seats := fun _ _ _ _ _ _ h => nomatch h }⟩

omit [DecidableEq ι] [DecidableEq κ] in
theorem Refines.bounds (h : Refines strings seat start s) :
    ∃ v, stored strings s.node = some v ∧ ∀ e ∈ s.returned, start ≤ e.2 ∧ e.2 < v := by
  obtain ⟨d,hd,v,hm⟩ := h
  refine ⟨v,hm.node,fun e he => ?_⟩
  obtain ⟨⟨r,hr,_,hn⟩,hlt⟩ := hd.backed e (hm.issued ▸ he)
  exact ⟨(hm.floor r (hm.ledger ▸ hr)).trans hn.1,hlt.trans_le (hm.passed _)⟩

end Simulation

/-- No number was returned twice, and each lies in a segment its instance reserved. -/
structure Unique (s : Cluster ι) : Prop where
  distinct : (s.returned.map Prod.snd).Nodup
  own : ∀ i n, (i,n) ∈ s.returned →
    ∃ r ∈ s.reserved, r.owner = i ∧ r.hi = r.lo+PERIOD ∧ r.Holds n

omit [DecidableEq ι] in
private theorem Refines.unique {strings : Strings} {start : Int} {s : Cluster ι}
    (h : Refines strings (fun i : ι => i) start s) : Unique s := by
  obtain ⟨d,hd,v,hm⟩ := h
  refine ⟨hm.issued ▸ hd.nodup,fun i n hn => ?_⟩
  obtain ⟨r,hr,ho,hrn,_⟩ := hd.private_segment (hm.issued ▸ hn)
  rw [hm.ledger] at hr
  exact ⟨r,hr,ho,(hm.top r hr).2,hrn⟩

/-- In every state of every run, whatever operations fail and whoever crashes: as long
as fetches are uncontested, numbers are unique across instances. -/
theorem unique_while_uncontested (strings : Strings) (node : Option String) (start : Int)
    (hnode : stored strings node = some start) (as : List (Label ι))
    (hok : StepsMeet (step strings) (Uncontested strings) (boot node) as) :
    Always (step strings) Unique (boot node) as := by
  have hseated : StepsMeet (step strings) (fun s a => Uncontested strings s a ∧ Seated (fun i => i) s a)
      (boot node) as := by
    refine hok.imp (fun _ _ _ (_ : True) _ _ => trivial) (fun s a _ h => ⟨h,?_⟩) trivial
    cases a with
    | construct i fault => exact fun _ j _ _ _ hj => hj
    | next | task | crash => trivial
  have hrefines := hseated.always (step_refines (stored_inRange hnode)) (boot_refines hnode)
  exact hrefines.mono fun s hs => hs.unique

/-- Two instances that interleave; neither extends its cache past the other's segment. -/
theorem unique_two_instances :
    let as : List (Label Bool) := [.construct false none,.next false none,.construct true none,
      .next true none,.next false none]
    (∃ s, exec (step .log4j) (boot none) as = some s ∧
      s.returned = [(false,1001),(true,2000),(false,1000)]) ∧
      Always (step .log4j) Unique (boot none) as := by
  intro as
  refine ⟨⟨_,rfl,by decide +kernel⟩,?_⟩
  exact unique_while_uncontested .log4j none 0 rfl as (by decide +kernel)

section Overrun
variable (strings : Strings) {s : Cluster ι} {i : ι} {c m : Int} {p : Nat}

private theorem step_local (hi : s.inst i = .alive ⟨c,m⟩ p) (hc : 0 < c) (hcm : c+1 < m)
    (hm : m ≤ Long.MAX_VALUE) : ∃ p', step strings s (.next i none) =
      some { s.enter i (.alive ⟨c+1,m⟩ p') with returned := (i,c) :: s.returned } := by
  have hl : low ⟨c,m⟩ = false := by
    have hm' : toLong (m-1) = m-1 := toLong_of_nonneg (by omega) (by omega)
    simp only [low,hm',Bool.or_eq_false_iff,decide_eq_false_iff_not]
    omega
  have ht : take ⟨c,m⟩ = ((c,(take ⟨c,m⟩).1.2),⟨c+1,m⟩) := by
    have hc' : toLong (c+1) = c+1 := toLong_of_nonneg (by omega) (by omega)
    simp only [take,hc']
  simp only [step,hi,next,hl,Bool.false_eq_true,if_false,Cluster.write,if_true]
  rw [ht]
  exact ⟨_,rfl⟩

theorem exec_local (k : Nat) (hi : s.inst i = .alive ⟨c,m⟩ p) (hc : 0 < c) (hcm : c+k < m)
    (hm : m ≤ Long.MAX_VALUE) :
    ∃ t p', exec (step strings) s (List.replicate k (.next i none)) = some t ∧
      t.node = s.node ∧ t.inst i = .alive ⟨c+k,m⟩ p' ∧ ∀ e ∈ s.returned, e ∈ t.returned := by
  induction k generalizing s c p with
  | zero => exact ⟨s,p,rfl,rfl,by simpa using hi,fun _ he => he⟩
  | succ k ih =>
    obtain ⟨p₁,hs⟩ := step_local strings hi hc (by omega) hm
    obtain ⟨t,p',ht,hn,hti,hr⟩ := ih (s := { s.enter i (.alive ⟨c+1,m⟩ p₁) with
      returned := (i,c) :: s.returned }) (Function.update_self ..) (by omega) (by omega)
    refine ⟨t,p',?_,hn,?_,fun e he => hr e (List.mem_cons_of_mem _ he)⟩
    · rw [List.replicate_succ,exec_cons,hs]
      exact ht
    · rw [hti]
      push_cast
      rw [show c+1+(k : Int) = c+(k+1) by omega]

private theorem exec_overrun (hi : s.inst i = .alive ⟨1999,2000⟩ p) (hn : s.node = some (valueOf 3000)) :
    ∃ t, exec (step .log4j) s (List.replicate 2 (.next i none)) = some t ∧ (i,2000) ∈ t.returned ∧
      ∀ e ∈ s.returned, e ∈ t.returned := by
  have hf : fetchSegment .log4j none (some (valueOf 3000)) ⟨1999,2000⟩ =
      (.ok (),some (valueOf 4000),⟨1999,4000⟩) := by decide +kernel
  have hl : low ⟨1999,2000⟩ = true := by decide
  have hfetch : ∃ u p', step .log4j s (.next i none) = some u ∧ u.inst i = .alive ⟨2000,4000⟩ p' ∧
      u.returned = (i,1999) :: s.returned := by
    simp only [step,hi,hn,next,hl,hf,if_true]
    exact ⟨_,_,rfl,Function.update_self ..,rfl⟩
  obtain ⟨u,p₁,hu,hui,hur⟩ := hfetch
  obtain ⟨p₂,ht⟩ := step_local .log4j hui (by decide) (by decide) (by decide)
  refine ⟨{ u.enter i (.alive ⟨2001,4000⟩ p₂) with returned := (i,2000) :: u.returned },?_,
    List.mem_cons_self,fun e he => List.mem_cons_of_mem _ (hur ▸ List.mem_cons_of_mem _ he)⟩
  rw [List.replicate_succ,exec_cons,hu,Option.bind_some,List.replicate_one,exec_cons,ht]
  rfl

end Overrun

/-- Instance `false` fetches `[1000,2000)`, instance `true` fetches `[2000,3000)` and
returns 2000. At 1999 the first one fetches again and goes on to 2000 as well. -/
theorem number_returned_by_two_instances :
    ∃ s : Cluster Bool, exec (step .log4j) (boot none) ([.construct false none,.next false none,
        .construct true none,.next true none] ++ List.replicate 1000 (.next false none)) = some s ∧
      (false,2000) ∈ s.returned ∧ (true,2000) ∈ s.returned ∧ ¬ Unique s := by
  have hstart : ∃ s : Cluster Bool, exec (step .log4j) (boot none) [.construct false none,
      .next false none,.construct true none,.next true none] = some s ∧
      s.inst false = .alive ⟨1001,2000⟩ 0 ∧ s.node = some (valueOf 3000) ∧
      (true,2000) ∈ s.returned :=
    ⟨_,rfl,by decide +kernel,by decide +kernel,by decide +kernel⟩
  obtain ⟨s,hs,hi,hn,hb⟩ := hstart
  obtain ⟨t,p,ht,htn,hti,htr⟩ := exec_local .log4j 998 hi (by decide) (by decide) (by decide)
  obtain ⟨u,hu,ha,hur⟩ := exec_overrun hti (htn.trans hn)
  have hb := hur _ (htr _ hb)
  refine ⟨u,?_,ha,hb,fun hu => ?_⟩
  · rw [exec_append,hs,Option.bind_some,show 1000 = 998+2 from rfl,List.replicate_add,exec_append,ht]
    exact hu
  · have := List.inj_on_of_nodup_map hu.distinct ha hb rfl
    exact absurd this (by decide)

end CloudWeb.Sequence.ZookeeperSequencePro
