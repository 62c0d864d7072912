import CloudWeb.Sequence.NumberCacheSequence

/-! One `NumberCacheSequence` as the only user of its counter. A refill overwrites what
is left of the segment, and the test at the head of `next()` asks for one early. -/
namespace CloudWeb.Sequence.NumberCacheSequence
open Java Foundation

/-- The counter, the fields and the numbers returned, newest first. -/
structure Alone where
  counter : Int
  node : NumberCacheSequence
  returned : List Int
  deriving DecidableEq, Repr

namespace Alone

def boot (start : Int) : Alone := ⟨start,{},[]⟩

/-- One whole call, refused where its fetch fails. Only a low cache asks Redis. -/
def step (s : Alone) (_ : Unit) : Option Alone :=
  let answer := if s.node.low then RAtomicLong.getAndAdd PERIOD s.counter else some (0,s.counter)
  answer.bind fun (v,counter) =>
    match s.node.next (.ok v) with
    | (.ok n,q) => some ⟨counter,q,n :: s.returned⟩
    | (.error _,_) => none

/-- The `k`-th number from `start`: 91 of every hundred. -/
def number (start : Int) (k : Nat) : Int := start+100*(k/91 : Nat)+(k%91 : Nat)

/-- The fields after `m+1` calls. -/
structure After (start : Int) (m : Nat) (s : Alone) : Prop where
  counter : s.counter = start+100*(m/91 : Nat)+PERIOD
  top : s.node.maxCacheValue = s.counter
  current : s.node.curValue = number start m+1
  room : s.counter ≤ Long.MAX_VALUE

section Calls
variable {start : Int} {m : Nat} {s t : Alone}

private theorem step_refill (hl : s.node.low = true) (hs : step s () = some t) :
    t.returned = s.counter :: s.returned ∧ t.counter = s.counter+PERIOD ∧ t.counter ≤ Long.MAX_VALUE ∧
      t.node = { maxCacheValue := toLong (s.counter+PERIOD), curValue := toLong (s.counter+1) } := by
  simp only [step,hl,if_true] at hs
  obtain ⟨⟨v,c⟩,hg,hn⟩ := Option.bind_eq_some_iff.mp hs
  obtain ⟨rfl,rfl,hr⟩ := RAtomicLong.getAndAdd_some hg
  simp only [next_refill hl] at hn
  cases hn
  exact ⟨rfl,rfl,hr.2,rfl⟩

private theorem step_cached (hl : s.node.low = false) (hs : step s () = some t) :
    t = ⟨s.counter,{ s.node with curValue := toLong (s.node.curValue+1) },s.node.curValue :: s.returned⟩ := by
  simp only [step,hl,Bool.false_eq_true,if_false,Option.bind_some,next_cached hl] at hs
  cases hs
  rfl

private theorem After.first (h0 : Long.InRange start) (hs : step (boot start) () = some t) :
    After start 0 t ∧ t.returned = [number start 0] := by
  have hP : PERIOD = 100 := rfl
  have hmin := h0.1
  have hM : Long.MIN_VALUE = -9223372036854775808 := rfl
  obtain ⟨hr,hc,hroom,hnode⟩ := step_refill (s := boot start) rfl hs
  have hb : (boot start).counter = start := rfl
  rw [hb] at hr hc hnode
  have hm : toLong (start+PERIOD) = start+PERIOD := toLong_eq ⟨by omega,by omega⟩
  have hn : toLong (start+1) = start+1 := toLong_eq ⟨by omega,by omega⟩
  refine ⟨⟨by simpa using hc,by rw [hnode,hm,hc],?_,hroom⟩,?_⟩
  · rw [hnode,hn,number]
    simp
  · rw [hr,number]
    simp [boot]

private theorem After.next (h0 : Long.InRange start) (h : After start m s) (hs : step s () = some t) :
    After start (m+1) t ∧ t.returned = number start (m+1) :: s.returned := by
  obtain ⟨hc,ht,hcur,hroom⟩ := h
  have hP : PERIOD = 100 := rfl
  have hmin := h0.1
  have hM : Long.MIN_VALUE = -9223372036854775808 := rfl
  have hMax : Long.MAX_VALUE = 9223372036854775807 := rfl
  have hstock : s.node.maxCacheValue-s.node.curValue = 99-(m%91 : Nat) := by
    rw [ht,hc,hcur,number]
    omega
  have hlow : s.node.low = true ↔ m%91 = 90 := by
    rw [low,hstock,decide_eq_true_iff,toLong_eq ⟨by omega,by omega⟩]
    omega
  cases hl : s.node.low with
  | true =>
    have hm := hlow.mp hl
    obtain ⟨hr,hct,hrt,hnode⟩ := step_refill hl hs
    have hm' : toLong (s.counter+PERIOD) = s.counter+PERIOD := toLong_eq ⟨by omega,by omega⟩
    have hn : toLong (s.counter+1) = s.counter+1 := toLong_eq ⟨by omega,by omega⟩
    have hnum : number start (m+1) = s.counter := by
      rw [number,hc]
      omega
    refine ⟨⟨?_,by rw [hnode,hm',hct],by rw [hnode,hn,hnum],hrt⟩,by rw [hr,hnum]⟩
    omega
  | false =>
    have hm : m%91 ≠ 90 := fun hm => by
      rw [hlow.mpr hm] at hl
      cases hl
    have hn : toLong (s.node.curValue+1) = s.node.curValue+1 := by
      refine toLong_eq ⟨?_,?_⟩
      · rw [hcur,number]
        omega
      · omega
    have hnum : number start (m+1) = s.node.curValue := by
      rw [hcur,number,number]
      omega
    rw [step_cached hl hs,hn]
    refine ⟨⟨?_,ht,by rw [hnum],hroom⟩,by rw [hnum]⟩
    dsimp only
    omega

end Calls

/-- Used alone, and as long as no fetch fails, the `k`-th call returns the `k`-th number:
each segment of a hundred yields 91 and its last 9 are passed over. -/
theorem returns_numbers (start : Int) (h0 : Long.InRange start) (n : Nat) (s : Alone)
    (h : exec step (boot start) (List.replicate n ()) = some s) :
    s.returned.reverse = (List.range n).map (number start) := by
  have hrun (m : Nat) (s : Alone) (h : exec step (boot start) (List.replicate (m+1) ()) = some s) :
      After start m s ∧ s.returned.reverse = (List.range (m+1)).map (number start) := by
    induction m generalizing s with
    | zero =>
      rw [List.replicate_succ'] at h
      obtain ⟨t,ht,hs⟩ := exec_concat_iff.mp h
      cases ht
      obtain ⟨ha,hr⟩ := After.first h0 hs
      exact ⟨ha,by rw [hr]; rfl⟩
    | succ m ih =>
      rw [List.replicate_succ'] at h
      obtain ⟨t,ht,hs⟩ := exec_concat_iff.mp h
      obtain ⟨ha,hall⟩ := ih t ht
      obtain ⟨ha',hr⟩ := ha.next h0 hs
      refine ⟨ha',?_⟩
      rw [hr,List.reverse_cons,hall,List.range_succ (n := m+1),List.map_append]
      rfl
  cases n with
  | zero =>
    cases h
    rfl
  | succ m => exact (hrun m s h).2

theorem returns_numbers_past_refill :
    ∃ s, exec step (boot 7) (List.replicate 93 ()) = some s ∧
      s.returned.reverse = (List.range 93).map (number 7) ∧ s.returned.take 3 = [108,107,97] := by
  have h : ∃ s ∈ exec step (boot 7) (List.replicate 93 ()), s.returned.take 3 = [108,107,97] := by
    decide +kernel
  obtain ⟨s,hs,hr⟩ := h
  exact ⟨s,hs,returns_numbers 7 (by decide) 93 s hs,hr⟩

theorem refill_passes_over_nine :
    ∃ s, exec step (boot 0) (List.replicate 92 ()) = some s ∧ s.returned.reverse[91]? = some 100 ∧
      ¬ s.returned.reverse[91]? = some (0+91) := by
  have h : ∃ s ∈ exec step (boot 0) (List.replicate 92 ()), s.returned.reverse[91]? = some 100 := by
    decide +kernel
  obtain ⟨s,hs,hr⟩ := h
  refine ⟨s,hs,hr,?_⟩
  rw [hr]
  decide

end Alone
end CloudWeb.Sequence.NumberCacheSequence
