import CloudWeb.Sequence.ZookeeperSegments
import Mathlib.Data.List.Chain
import Mathlib.Data.Fintype.Basic

/-! A node with one `ZookeeperSequencePro` at a time. The successive instances are
incarnations of one user, so they share a seat of the abstract generator, and no
fetch of theirs is ever contested. -/
namespace CloudWeb.Sequence.ZookeeperSequencePro
open Java Foundation
variable {ι : Type*} [DecidableEq ι]

/-- A new instance finds nobody alive, and stored values stay below 2^63. -/
def SoleUser (strings : Strings) (s : Cluster ι) : Label ι → Prop
  | .construct i fault => s.inst i = .idle → Room strings s fault ∧ ∀ j, (s.inst j).isAlive = false
  | .next i fault => (s.inst i).WhenAlive fun q _ => q.low = true → Room strings s fault
  | .task i fault => (s.inst i).WhenAlive fun _ pending => 0 < pending → Room strings s fault
  | .crash _ none => True
  | .crash _ (some fault) => Room strings s (some fault)

instance [Fintype ι] (strings : Strings) (s : Cluster ι) (a : Label ι) :
    Decidable (SoleUser strings s a) :=
  match a with
  | .construct i _ => inferInstanceAs (Decidable (s.inst i = .idle → Room strings s _ ∧ ∀ _, _))
  | .next i _ => inferInstanceAs (Decidable ((s.inst i).WhenAlive _))
  | .task i _ => inferInstanceAs (Decidable ((s.inst i).WhenAlive _))
  | .crash _ none => isTrue trivial
  | .crash _ (some fault) => inferInstanceAs (Decidable (Room strings s (some fault)))

/-- What one incarnation returned, newest first. -/
def Cluster.returnedBy (s : Cluster ι) (i : ι) : List Int :=
  s.returned.filterMap fun e => if e.1 = i then some e.2 else none

/-- Beside the refinement: each incarnation counts by ones, `curNum` is where it stands,
and its interval is its own. -/
structure History (s : Cluster ι) : Prop where
  chain : ∀ i, (s.returnedBy i).IsChain fun newer older => newer = older+1
  fresh : ∀ i, s.inst i = .idle → s.returnedBy i = []
  newest : ∀ i q p, s.inst i = .alive q p → ∀ n ∈ (s.returnedBy i).head?, 0 ≤ n ∧ q.curNum = n+1
  clear : ∀ i q p, s.inst i = .alive q p → Clear s i q

section Steps
variable {strings : Strings} {start v : Int} {s t : Cluster ι} {i : ι}

theorem History.update (h : History s) {ph : Phase} (hidle : ph ≠ .idle)
    (halone : ∀ j q p, s.inst j = .alive q p → j = i) (hinst : t.inst = Function.update s.inst i ph)
    (hothers : ∀ j, j ≠ i → t.returnedBy j = s.returnedBy j)
    (hchain : (t.returnedBy i).IsChain fun newer older => newer = older+1)
    (hlive : ∀ q p, ph = .alive q p →
      (∀ n ∈ (t.returnedBy i).head?, 0 ≤ n ∧ q.curNum = n+1) ∧ Clear t i q) : History t := by
  have hself : t.inst i = ph := by
    rw [hinst,Function.update_self]
  have hother {j : ι} (hj : j ≠ i) : t.inst j = s.inst j := by
    rw [hinst,Function.update_of_ne hj]
  -- nobody else is alive before or after
  have hlone {j : ι} {q : ZookeeperSequencePro} {p : Nat} (hj : t.inst j = .alive q p) :
      j = i ∧ ph = .alive q p := alive_update halone (hinst ▸ hj)
  refine ⟨fun j => ?_,fun j hj => ?_,fun j q p hj => ?_,fun j q p hj => ?_⟩
  · by_cases hji : j = i
    · exact hji ▸ hchain
    · exact hothers j hji ▸ h.chain j
  · by_cases hji : j = i
    · subst hji
      exact absurd (hself ▸ hj) hidle
    · exact hothers j hji ▸ h.fresh j (hother hji ▸ hj)
  · obtain ⟨rfl,hp⟩ := hlone hj
    exact (hlive q p hp).1
  · obtain ⟨rfl,hp⟩ := hlone hj
    exact (hlive q p hp).2

theorem History.dead (h : History s) (halone : ∀ j q p, s.inst j = .alive q p → j = i)
    (hinst : t.inst = Function.update s.inst i .dead) (hsame : t.returned = s.returned) : History t := by
  have hby (j : ι) : t.returnedBy j = s.returnedBy j := by
    simp only [Cluster.returnedBy,hsame]
  refine h.update (fun hp => ?_) halone hinst (fun j _ => hby j) (hby i ▸ h.chain i) fun q p hq => ?_
  · cases hp
  · cases hq

omit [DecidableEq ι] in
/-- Foreign segments end at or below a `curNum` that was kept or has started afresh. -/
theorem Clear.foreign {q q' : ZookeeperSequencePro} (h : Clear s i q) (htop : ∀ r ∈ s.reserved, r.hi ≤ v)
    (hcur : (q'.curNum = q.curNum ∧ q.curNum ≠ 0) ∨ (q.curNum = 0 ∧ q'.curNum = v)) :
    ∀ r ∈ s.reserved, r.owner ≠ i → r.hi ≤ q'.curNum := by
  intro r hr ho
  rcases hcur with ⟨hc,hne⟩ | ⟨_,hc⟩
  · exact hc ▸ h.resolve_left hne r hr ho
  · exact hc ▸ htop r hr

theorem History.fetched (h : History s) (halone : ∀ j q p, s.inst j = .alive q p → j = i)
    {q q' : ZookeeperSequencePro} {p p' : Nat} (hi : s.inst i = .alive q p)
    (htop : ∀ r ∈ s.reserved, r.hi ≤ v) {fault : Option Fault}
    {out : Except DistributedSequenceException Unit} {s' : Cluster ι} (hf : Fetched s i v q fault out q' s') :
    History (s'.enter i (.alive q' p')) := by
  have hby (j : ι) : (s'.enter i (.alive q' p')).returnedBy j = s.returnedBy j := by
    simp only [Cluster.returnedBy,Cluster.enter,hf.inst.2]
  have hcur := hf.curNum
  have hclear := h.clear i q p hi
  refine h.update (fun hp => ?_) halone (by rw [Cluster.enter,hf.inst.1]) (fun j _ => hby j)
    (hby i ▸ h.chain i) fun r m hr => ?_
  · cases hp
  cases hr
  constructor
  · intro n hn
    obtain ⟨h0,hq⟩ := h.newest i q p hi n (hby i ▸ hn)
    rcases hcur with ⟨hc,_⟩ | ⟨hc,_⟩
    · exact ⟨h0,hc.trans hq⟩
    · omega
  · by_cases hz : q'.curNum = 0
    · exact .inl hz
    · refine .inr fun r hr ho => hclear.foreign htop ?_ r (hf.foreign hr ho) ho
      exact hcur.imp_left fun ⟨hc,_⟩ => And.intro hc (hc ▸ hz)

theorem History.returns (h : History s) (halone : ∀ j q p, s.inst j = .alive q p → j = i) {s' : Cluster ι}
    (hsame : s'.inst = s.inst ∧ s'.returned = s.returned) {q : ZookeeperSequencePro} {p : Nat}
    (hnext : ∀ m ∈ (s.returnedBy i).head?, q.curNum = m+1) (h0 : 0 ≤ q.curNum)
    (hmax : q.curNum < Long.MAX_VALUE) (hforeign : ∀ r ∈ s'.reserved, r.owner ≠ i → r.hi ≤ q.curNum) :
    History (s'.returns i q p) := by
  have hcur : q.take.2.curNum = q.curNum+1 := toLong_of_nonneg (by omega) hmax
  have hby : (s'.returns i q p).returnedBy i = q.curNum :: s.returnedBy i := by
    simp only [Cluster.returnedBy,Cluster.returns,hsame.2,List.filterMap_cons,if_true]
  refine h.update (fun hp => ?_) halone (by rw [Cluster.returns,Cluster.enter,hsame.1]) (fun j hj => ?_) ?_
    fun r m hr => ?_
  · cases hp
  · simp only [Cluster.returnedBy,Cluster.returns,hsame.2,List.filterMap_cons,if_neg hj.symm]
  · rw [hby]
    exact List.isChain_cons.mpr ⟨hnext,h.chain i⟩
  · cases hr
    rw [hby]
    refine ⟨fun n hn => ?_,.inr fun r hr ho => (hforeign r hr ho).trans (by omega)⟩
    obtain rfl : q.curNum = n := Option.some.inj hn
    exact ⟨h0,hcur⟩

omit [DecidableEq ι] in
theorem Refines.alone (h : Refines strings (fun _ : ι => ()) start s) {j : ι}
    {q q' : ZookeeperSequencePro} {p p' : Nat} (hi : s.inst i = .alive q p)
    (hj : s.inst j = .alive q' p') : j = i := by
  obtain ⟨d,_,v,hm⟩ := h
  by_contra hji
  exact hm.seats j i q' p' q p hj hi hji rfl

/-- A sole user is never contested. -/
theorem uncontested_of_soleUser (h : History s) {a : Label ι} (hok : SoleUser strings s a) :
    Uncontested strings s a ∧ Seated (fun _ => ()) s a := by
  cases a with
  | construct i fault =>
    refine ⟨fun hi => (hok hi).1,fun hi j q p hj => ?_⟩
    have hdead := (hok hi).2 j
    rw [hj] at hdead
    cases hdead
  | next i fault =>
    refine ⟨Phase.whenAlive_iff.mpr fun q p hi hl => ?_,trivial⟩
    exact ⟨Phase.whenAlive_iff.mp hok q p hi hl,fun _ => h.clear i q p hi⟩
  | task i fault =>
    refine ⟨Phase.whenAlive_iff.mpr fun q p hi hp => ?_,trivial⟩
    exact ⟨Phase.whenAlive_iff.mp hok q p hi hp,fun _ => h.clear i q p hi⟩
  | crash i inFetch =>
    cases inFetch with
    | none => exact ⟨trivial,trivial⟩
    | some fault => exact ⟨hok,trivial⟩

omit [DecidableEq ι] in
theorem SoleUser.hasRoom {a : Label ι} (h : SoleUser strings s a) : HasRoom strings s a := by
  cases a with
  | construct i fault => exact fun hi => (h hi).1
  | next i fault => exact h
  | task i fault => exact h
  | crash i inFetch =>
    cases inFetch with
    | none => trivial
    | some fault => exact Phase.whenAlive_iff.mpr fun _ _ _ _ => h

omit [DecidableEq ι] in
theorem SoleUser.nobody {fault : Option Fault} (h : SoleUser strings s (.construct i fault))
    (hi : s.inst i = .idle) (j : ι) (q : ZookeeperSequencePro) (p : Nat) (hj : s.inst j = .alive q p) :
    j = i := by
  have hdead := (h hi).2 j
  rw [hj] at hdead
  cases hdead

private theorem step_history (h0 : 0 ≤ start) (h : Refines strings (fun _ : ι => ()) start s)
    (hist : History s) {a : Label ι} (hok : SoleUser strings s a) (hstep : step strings s a = some t)
    (ht : Refines strings (fun _ : ι => ()) start t) : History t := by
  have halone {i : ι} {q : ZookeeperSequencePro} {p : Nat} (hi : s.inst i = .alive q p) (j : ι)
      (q' : ZookeeperSequencePro) (p' : Nat) (hj : s.inst j = .alive q' p') : j = i := h.alone hi hj
  have hret : ∀ e ∈ t.returned, 0 ≤ e.2 ∧ e.2 < Long.MAX_VALUE := by
    obtain ⟨w,hw,hb⟩ := ht.bounds
    have hmax := (stored_inRange hw).2
    exact fun e he => ⟨h0.trans (hb e he).1,(hb e he).2.trans_le hmax⟩
  obtain ⟨d,_,v,hm⟩ := h
  have htop : ∀ r ∈ s.reserved, r.hi ≤ v := fun r hr => (hm.top r hr).1
  cases step_moves hm.toCounted hok.hasRoom hstep with
  | @constructed i fault q s' hi hf =>
    have hby (j : ι) : (s'.enter i (.alive q 0)).returnedBy j = s.returnedBy j := by
      simp only [Cluster.returnedBy,Cluster.enter,hf.inst.2]
    have hcur := hf.curNum.imp_left fun hc => And.intro hc.1 (hc.2 rfl)
    refine hist.update (fun hp => ?_) (hok.nobody hi) (by rw [Cluster.enter,hf.inst.1])
      (fun j _ => hby j) (hby i ▸ hist.chain i) fun q' p hq => ?_
    · cases hp
    cases hq
    refine ⟨fun n hn => ?_,.inr fun r hr ho => ?_⟩
    · rw [hby,hist.fresh i hi] at hn
      cases hn
    · exact Clear.foreign (.inl rfl) htop hcur r (hf.foreign hr ho) ho
  | stillborn hi hf => exact hist.dead (hok.nobody hi) (by rw [Cluster.enter,hf.inst.1]) hf.inst.2
  | @cached i fault q p hi hl =>
    have hnum := hret (i,q.curNum) List.mem_cons_self
    have hne : q.curNum ≠ 0 := by
      simp only [low,Bool.or_eq_false_iff,decide_eq_false_iff_not] at hl
      exact hl.1
    refine hist.returns (halone hi) ⟨rfl,rfl⟩ (fun m hm => (hist.newest i q p hi m hm).2) hnum.1 hnum.2 ?_
    exact (hist.clear i q p hi).foreign htop (.inl ⟨rfl,hne⟩)
  | @failed i _ q p _ _ _ hi _ hf => exact hist.fetched (halone hi) hi htop hf
  | @fetched i _ q p q' _ hi _ hf =>
    have hnum := hret (i,q'.curNum) List.mem_cons_self
    have hcur := hf.curNum.imp_left fun hc => And.intro hc.1 (hc.2 rfl)
    refine hist.returns (halone hi) hf.inst (fun m hm => ?_) hnum.1 hnum.2 fun r hr ho => ?_
    · obtain ⟨hm0,hq⟩ := hist.newest i q p hi m hm
      rcases hcur with ⟨hc,_⟩ | ⟨hc,_⟩
      · exact hc.trans hq
      · omega
    · exact (hist.clear i q p hi).foreign htop hcur r (hf.foreign hr ho) ho
  | @task i _ q p _ _ _ hi hf => exact hist.fetched (halone hi) hi htop hf
  | crash hi => exact hist.dead (halone hi) rfl rfl
  | crashInFetch hi _ hf => exact hist.dead (halone hi) (by rw [Cluster.enter,hf.inst.1]) hf.inst.2

end Steps

/-- What a sole user may rely on over all its incarnations. -/
structure Durable (strings : Strings) (s : Cluster ι) : Prop where
  below : ∃ v, stored strings s.node = some v ∧ ∀ e ∈ s.returned, e.2 < v
  increasing : s.returned.Pairwise fun newer older => older.2 < newer.2
  consecutive : ∀ i, (s.returnedBy i).IsChain fun newer older => newer = older+1

/-- Through every failure, crash and restart of a sole user: each number returned is
below the value then stored, numbers increase across incarnations, and an incarnation
counts by ones whenever its prefetches run. -/
theorem durable_for_sole_user (strings : Strings) (node : Option String) (start : Int)
    (hnode : stored strings node = some start) (h0 : 0 ≤ start) (as : List (Label ι))
    (hok : StepsMeet (step strings) (SoleUser strings) (boot node) as) :
    Always (step strings) (Durable strings) (boot node) as := by
  have hs := stored_inRange hnode
  let inv (s : Cluster ι) : Prop := Refines strings (fun _ => ()) start s ∧ History s
  have hstep : ∀ s a t, inv s → SoleUser strings s a → step strings s a = some t → inv t := by
    intro s a t hi ha hst
    have hr := step_refines hs s a t hi.1 (uncontested_of_soleUser hi.2 ha) hst
    exact ⟨hr,step_history h0 hi.1 hi.2 ha hst hr⟩
  have hboot : inv (boot node) := by
    refine ⟨boot_refines hnode,⟨fun _ => .nil,fun _ _ => rfl,fun _ _ _ h => ?_,fun _ _ _ h => ?_⟩⟩
    · cases h
    · cases h
  refine (hok.always hstep hboot).mono fun s hi => ⟨?_,?_,hi.2.chain⟩
  · obtain ⟨v,hv,hb⟩ := hi.1.bounds
    exact ⟨v,hv,fun e he => (hb e he).2⟩
  · obtain ⟨d,hd,v,hm⟩ := hi.1
    exact hm.issued ▸ hd.increasing.imp fun hlt => hlt rfl

/-- A blank node; a write that throws but was applied; a crash; 802 calls, a prefetch and
a crash inside the next one; a third incarnation. -/
theorem durable_over_restart :
    let as : List (Label (Fin 3)) := [.construct 0 none,.next 0 (some (.write true)),.next 0 none,
      .next 0 none,.crash 0 none,.construct 1 none] ++ List.replicate 802 (.next 1 none) ++
      [.task 1 none,.next 1 none,.crash 1 (some (.write true)),.construct 2 none,.next 2 none]
    (exec (step .log4j) (boot (some " ")) as).map (fun s => (s.node,s.returned.take 2,s.returnedBy 0)) =
        some (some (valueOf 7000),[(2,6000),(1,3802)],[1001,1000]) ∧
      Always (step .log4j) (Durable .log4j) (boot (some " ")) as := by
  intro as
  refine ⟨by decide +kernel,?_⟩
  exact durable_for_sole_user .log4j (some " ") 0 (by decide) (by decide) as (by decide +kernel)

end CloudWeb.Sequence.ZookeeperSequencePro
