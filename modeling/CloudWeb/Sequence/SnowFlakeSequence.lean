import CloudWeb.Sequence.SnowFlake

/-! `SnowFlakeSequence`: the generator behind a constructor that checks both ids. -/
namespace CloudWeb.Sequence
open Java Foundation

structure IllegalArgumentException where
  message : String
  deriving DecidableEq, Repr

namespace SnowFlakeSequence
open SnowFlake

def idMessage (name : String) (max : Int64) : String :=
  name ++ " can't be greater than " ++ toString max ++ " or less than 0"

/-- The constructor. -/
def new (datacenterId machineId : Int64) : Except IllegalArgumentException SnowFlake :=
  if datacenterId > MAX_DATACENTER_NUM ∨ datacenterId < 0 then
    .error ⟨idMessage "dataCenterId" MAX_DATACENTER_NUM⟩
  else if machineId > MAX_MACHINE_NUM ∨ machineId < 0 then
    .error ⟨idMessage "machineId" MAX_MACHINE_NUM⟩
  else .ok { datacenterId := datacenterId, machineId := machineId }

private theorem field_of_range {a : Int64} (h : ¬ (a > 31 ∨ a < 0)) : bits a < 2^5 := by
  have hh : a.toInt ≤ 31 := by
    have := Int64.not_lt.mp (not_or.mp h).1
    exact Int64.le_iff_toInt_le.mp this
  have hl : 0 ≤ a.toInt := by
    have := Int64.not_lt.mp (not_or.mp h).2
    exact Int64.le_iff_toInt_le.mp this
  have := (bits_of_nonneg hl).2
  omega

theorem new_ok {d m : Int64} {g : SnowFlake} (h : new d m = .ok g) :
    g = { datacenterId := d, machineId := m } ∧ bits d < 2^5 ∧ bits m < 2^5 := by
  unfold new at h
  split at h
  · cases h
  next hd =>
  split at h
  · cases h
  next hm =>
  cases h
  exact ⟨rfl,field_of_range hd,field_of_range hm⟩

def Runs (d m : Int64) (s : Trace) : Prop :=
  ∃ g calls, new d m = .ok g ∧ (∀ rs ∈ calls, ∀ r ∈ rs, InWindow r) ∧
    exec step ⟨g,[]⟩ calls = some s

theorem Runs.ordered {d m : Int64} {s : Trace} (h : Runs d m s) :
    Ordered InWindow { datacenterId := d, machineId := m } s ∧ bits d < 2^5 ∧ bits m < 2^5 := by
  obtain ⟨g,calls,hn,hw,he⟩ := h
  obtain ⟨rfl,hd,hm⟩ := new_ok hn
  exact ⟨run_ordered (show bits 0 < 2^12 by decide) hw he,hd,hm⟩

/-- What an id says about itself. -/
structure Decodes (d m id t q : Int64) : Prop where
  nonneg : 0 ≤ id
  stmp : id >>> TIMESTMP_LEFT = t - START_STMP
  datacenter : (id >>> DATACENTER_LEFT) &&& MAX_DATACENTER_NUM = d
  machine : (id >>> MACHINE_LEFT) &&& MAX_MACHINE_NUM = m
  sequence : id &&& MAX_SEQUENCE = q

theorem compose_decodes {g : SnowFlake} {t q : Int64} (ht : InWindow t)
    (hd : bits g.datacenterId < 2^5) (hm : bits g.machineId < 2^5) (hq : bits q < 2^12) :
    Decodes g.datacenterId g.machineId (g.compose t q) t q := by
  obtain ⟨hl,hpos⟩ := bits_compose ht (hd.trans (by decide)) (hm.trans (by decide)) hq
  have hsum := layout_eq_sum (t := elapsed t) hd hm hq
  have hshift (k : Nat) (hk : k < 64) :
      bits (g.compose t q >>> Int64.ofNat k) = bits (g.compose t q) / 2^k := by
    rw [bits_shiftRight hk hpos,Nat.shiftRight_eq_div_pow]
  refine ⟨?_,bits_inj.mp ?_,bits_inj.mp ?_,bits_inj.mp ?_,compose_sequence g t hq⟩
  · rw [Int64.le_iff_toInt_le,toInt_eq_bits hpos]
    exact Int.natCast_nonneg _
  · have := hshift 22 (by decide)
    rw [show TIMESTMP_LEFT = Int64.ofNat 22 from rfl,this,ht.sub.1,hl,hsum]
    omega
  · have := hshift 17 (by decide)
    rw [show DATACENTER_LEFT = Int64.ofNat 17 from rfl,bits_and,this,
      show bits MAX_DATACENTER_NUM = 2^5-1 from rfl,Nat.and_two_pow_sub_one_eq_mod,hl,hsum]
    omega
  · have := hshift 12 (by decide)
    rw [show MACHINE_LEFT = Int64.ofNat 12 from rfl,bits_and,this,
      show bits MAX_MACHINE_NUM = 2^5-1 from rfl,Nat.and_two_pow_sub_one_eq_mod,hl,hsum]
    omega

private theorem sequence_range {q : Int64} (h : bits q < 2^12) : 0 ≤ q ∧ q ≤ 4095 := by
  have hi := toInt_eq_bits (a := q) (by omega)
  have h0 : (0 : Int64).toInt = 0 := rfl
  have hm : (4095 : Int64).toInt = 4095 := rfl
  constructor <;> rw [Int64.le_iff_toInt_le] <;> omega

/-- Round trip and cross-instance uniqueness. Every id returned from a reachable
state decodes to the reading it used, the constructor's ids and the sequence number;
so instances with different id pairs never share an id, whatever their clocks. -/
theorem layout_round_trip :
    (∀ d m s, Runs d m s → ∀ readings, (∀ r ∈ readings, InWindow r) →
      ∀ id g rest, s.gen.next readings = some ((.ok id,g),rest) →
        Decodes d m id g.lastStmp g.sequence ∧ g.lastStmp ∈ readings ∧
        0 ≤ g.sequence ∧ g.sequence ≤ 4095) ∧
    (∀ d m d' m' s s', Runs d m s → Runs d' m' s' → (d,m) ≠ (d',m') →
      ∀ e ∈ s.issued, ∀ e' ∈ s'.issued, e.id ≠ e'.id) := by
  constructor
  · intro d m s hr readings hw id g rest hn
    obtain ⟨ho,hd,hm⟩ := hr.ordered
    rcases next_cases hn with ⟨he,_⟩ | ⟨t,q,he,rfl,ht,hcase⟩
    · cases he
    · cases he
      have hq : bits q < 2^12 := by
        rcases hcase with ⟨_,rfl,hne⟩ | ⟨_,rfl⟩
        · obtain ⟨hv,hlt⟩ := masked_succ ho.sequence hne
          omega
        · decide
      have hdec := compose_decodes (g := { datacenterId := d, machineId := m }) (hw t ht) hd hm hq
      rw [show s.gen.compose t q = SnowFlake.compose { datacenterId := d, machineId := m } t q by
        simp only [compose,ho.datacenter,ho.machine]]
      exact ⟨hdec,ht,sequence_range hq⟩
  · intro d m d' m' s s' hr hr' hne e he e' he' heq
    obtain ⟨ho,hd,hm⟩ := hr.ordered
    obtain ⟨ho',hd',hm'⟩ := hr'.ordered
    obtain ⟨hi,hq,hw⟩ := ho.made e he
    obtain ⟨hi',hq',hw'⟩ := ho'.made e' he'
    have hdec := compose_decodes (g := { datacenterId := d, machineId := m }) hw hd hm hq
    have hdec' := compose_decodes (g := { datacenterId := d', machineId := m' }) hw' hd' hm' hq'
    rw [← hi] at hdec
    rw [← hi',← heq] at hdec'
    exact hne (Prod.ext (hdec.datacenter.symm.trans hdec'.datacenter)
      (hdec.machine.symm.trans hdec'.machine))

/-- The last millisecond of the window and the largest datacenter id, from a state
that has already used that millisecond once; a second pair issues beside it. -/
theorem layout_round_trip_last_millisecond :
    let t : Int64 := START_STMP + 2199023255551
    let g : SnowFlake := { datacenterId := 31, machineId := 0, lastStmp := t }
    let s : Trace := ⟨g,[⟨g.compose t 0,t,0⟩]⟩
    let s' : Trace := ⟨{ g with datacenterId := 0, machineId := 31 },
      [⟨compose { datacenterId := 0, machineId := 31 } t 0,t,0⟩]⟩
    (Decodes 31 0 (g.compose t 1) t 1 ∧ t ∈ [t] ∧ (0 : Int64) ≤ 1 ∧ (1 : Int64) ≤ 4095) ∧
      ∀ e ∈ s.issued, ∀ e' ∈ s'.issued, e.id ≠ e'.id := by
  intro t g s s'
  have hw : ∀ r ∈ [t], InWindow r := by
    intro r hr
    rw [List.mem_singleton.mp hr]
    exact ⟨by decide,by decide⟩
  have hw' : ∀ rs ∈ [[t]], ∀ r ∈ rs, InWindow r := fun rs hrs => by
    rw [List.mem_singleton.mp hrs]
    exact hw
  have hr : Runs 31 0 s := ⟨_,[[t]],rfl,hw',rfl⟩
  have hr' : Runs 0 31 s' := ⟨_,[[t]],rfl,hw',rfl⟩
  have hn : s.gen.next [t] = some ((.ok (g.compose t 1),{ g with sequence := 1 }),[]) := by decide
  exact ⟨layout_round_trip.1 31 0 s hr [t] hw _ _ [] hn,
    layout_round_trip.2 31 0 0 31 s s' hr hr' (by decide)⟩

theorem compose_mono {g : SnowFlake} (hd : bits g.datacenterId < 2^5)
    (hm : bits g.machineId < 2^5) {a b : Issue} (ha : InWindow a.stmp) (hb : InWindow b.stmp)
    (hqa : bits a.sequence < 2^12) (hqb : bits b.sequence < 2^12) (h : a.Before b) :
    g.compose a.stmp a.sequence < g.compose b.stmp b.sequence := by
  have value {t q : Int64} (ht : InWindow t) (hq : bits q < 2^12) : (g.compose t q).toInt =
      elapsed t * 2^22 + bits g.datacenterId * 2^17 + bits g.machineId * 2^12 + bits q := by
    obtain ⟨hl,hpos⟩ := bits_compose ht (hd.trans (by decide)) (hm.trans (by decide)) hq
    rw [toInt_eq_bits hpos,hl,layout_eq_sum hd hm hq]
    push_cast
    rfl
  rw [Int64.lt_iff_toInt_lt,value ha hqa,value hb hqb]
  have hea := ha.elapsed_lt.2
  have heb := hb.elapsed_lt.2
  rcases h with h | ⟨h,hq⟩
  · rw [Int64.lt_iff_toInt_lt] at h
    omega
  · rw [h]
    omega

/-- Strict monotonicity under any clock. A call that throws changes no field, and a
call ends as soon as some later reading exceeds `lastStmp`; those that return, over
any run, return strictly increasing ids. -/
theorem ids_strictly_increasing (d m : Int64) (s : Trace) (h : Runs d m s) :
    (s.issued.Pairwise fun newer older => older.id < newer.id) ∧
    (∀ readings e g rest, s.gen.next readings = some ((.error e,g),rest) →
      g.lastStmp = s.gen.lastStmp ∧ g.sequence = s.gen.sequence) ∧
    (∀ clock : Nat → Int64, (∃ j, 0 < j ∧ s.gen.lastStmp < clock j) →
      ∃ k out, s.gen.next ((List.range k).map clock) = some (out,[])) := by
  obtain ⟨ho,hd,hm⟩ := h.ordered
  refine ⟨?_,?_,fun clock hj => next_ends s.gen clock hj⟩
  · refine ho.ordered.imp_of_mem fun {a b} ha hb hab => ?_
    obtain ⟨hia,hqa,hwa⟩ := ho.made a ha
    obtain ⟨hib,hqb,hwb⟩ := ho.made b hb
    rw [hia,hib]
    exact compose_mono hd hm hwb hwa hqb hqa hab
  · intro readings e g rest hn
    rcases next_cases hn with ⟨_,rfl⟩ | ⟨_,_,he,_⟩
    · exact ⟨rfl,rfl⟩
    · cases he

theorem ids_strictly_increasing_over_rollback :
    ∃ s, exec step ⟨{ datacenterId := 1, machineId := 1 },[]⟩
        [[START_STMP + 5],[START_STMP + 5],[START_STMP],[START_STMP + 9]] = some s ∧
      s.issued.length = 3 ∧ s.issued.Pairwise fun newer older => older.id < newer.id := by
  have h₀ : InWindow START_STMP := ⟨by decide,by decide⟩
  have h₅ : InWindow (START_STMP + 5) := ⟨by decide,by decide⟩
  have h₉ : InWindow (START_STMP + 9) := ⟨by decide,by decide⟩
  refine ⟨_,rfl,rfl,(ids_strictly_increasing 1 1 _ ⟨_,
    [[START_STMP + 5],[START_STMP + 5],[START_STMP],[START_STMP + 9]],rfl,?_,rfl⟩).1⟩
  simp [h₀,h₅,h₉]

end SnowFlakeSequence
end CloudWeb.Sequence
