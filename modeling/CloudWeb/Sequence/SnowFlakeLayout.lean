import CloudWeb.Sequence.SnowFlakeMilliseconds

/-! `SnowFlakeSequence` on clocks outside the window of its timestamp field. Nothing but
`lastStmp` is compared with a reading, so whatever exceeds it is shifted into the id. -/
namespace CloudWeb.Sequence.SnowFlakeSequence
open Java Foundation SnowFlake

def timestamp (id : Int64) : Int64 := (id >>> TIMESTMP_LEFT) &&& ((-1 : Int64) ^^^ ((-1 : Int64) <<< 41))

/-- What the class comment says of the two upper fields of an id made of `currStmp`. -/
structure Documented (currStmp id : Int64) : Prop where
  sign : 0 ≤ id
  field : timestamp id = currStmp - START_STMP

/-- A call on the stream `clock` ends, and either throws or returns a documented id of
the reading it has remembered. -/
def KeepsLayout (g : SnowFlake) (clock : Nat → Int64) : Prop :=
  ∃ k out g', g.next ((List.range k).map clock) = some ((out,g'),[]) ∧
    ∀ id, out = .ok id → Documented g'.lastStmp id

/-- A reading that ends the call with an id. -/
def Usable (g : SnowFlake) (reading : Int64) : Prop := g.lastStmp ≤ reading ∧ ¬ Spins g reading

/-- `s` is reached by whole calls on a new instance, over any clock since 1970. -/
def Reaches (d m : Int64) (s : Trace) : Prop :=
  ∃ g calls, new d m = .ok g ∧ (∀ rs ∈ calls, ∀ r ∈ rs, 0 ≤ r) ∧ exec step ⟨g,[]⟩ calls = some s

section Call
variable {g : SnowFlake} {clock : Nat → Int64}

private theorem getNextMill_extend {lastStmp : Int64} {readings : List Int64} {mill : Int64}
    {rest : List Int64} (h : getNextMill lastStmp readings = some (mill,rest)) (more : List Int64) :
    getNextMill lastStmp (readings ++ more) = some (mill,rest ++ more) := by
  induction readings with
  | nil => cases h
  | cons r readings ih =>
    rw [List.cons_append,getNextMill]
    rw [getNextMill] at h
    split at h
    · next hr => rw [if_pos hr,ih h]
    · next hr =>
      rw [if_neg hr]
      cases h
      rfl

private theorem next_extend {readings : List Int64} {out : Except RuntimeException Int64 × SnowFlake}
    {rest : List Int64} (h : g.next readings = some (out,rest)) (more : List Int64) :
    g.next (readings ++ more) = some (out,rest ++ more) := by
  cases readings with
  | nil => cases h
  | cons c readings =>
    simp only [List.cons_append,next] at h ⊢
    split at h
    · next hc =>
      rw [if_pos hc]
      cases h
      rfl
    next hc =>
    rw [if_neg hc]
    split at h
    · next he =>
      rw [if_pos he]
      split at h
      · next hz =>
        obtain ⟨⟨mill,r⟩,hm,hi⟩ := Option.map_eq_some_iff.mp h
        rw [if_pos hz,getNextMill_extend hm]
        cases hi
        rfl
      · next hz =>
        rw [if_neg hz]
        cases h
        rfl
    · next he =>
      rw [if_neg he]
      cases h
      rfl

private theorem next_unique {k j : Nat} {out out' : Except RuntimeException Int64 × SnowFlake}
    (h : g.next ((List.range k).map clock) = some (out,[]))
    (h' : g.next ((List.range j).map clock) = some (out',[])) : out = out' := by
  wlog hle : k ≤ j generalizing k j out out'
  · exact (this h' h (Nat.le_of_not_le hle)).symm
  obtain ⟨i,rfl⟩ := Nat.exists_eq_add_of_le hle
  rw [List.range_add,List.map_append,next_extend h] at h'
  exact (Prod.mk.inj (Option.some.inj h')).1

private theorem le_of_not_usable {r : Int64} (h : ¬ Usable g r) : r ≤ g.lastStmp := by
  by_contra hn
  rw [Int64.not_le] at hn
  exact h ⟨Int64.le_of_lt hn,fun hs => Int64.lt_irrefl (hs.1 ▸ hn)⟩

private theorem next_first (hq : bits g.sequence < 2^12) (h0 : ¬ clock 0 < g.lastStmp) {j : Nat}
    (hj : Usable g (clock j)) (hfirst : ∀ i < j, ¬ Usable g (clock i)) :
    ∃ q, bits q < 2^12 ∧ g.next ((List.range (j+1)).map clock) =
      some ((.ok (g.compose (clock j) q),{ g with sequence := q, lastStmp := clock j }),[]) := by
  by_cases hs : Spins g (clock 0)
  · cases j with
    | zero => exact absurd hs hj.2
    | succ j =>
      have hlt : g.lastStmp < clock (j+1) := by
        by_contra hn
        exact hj.2 ⟨Int64.le_antisymm (Int64.not_lt.mp hn) hj.1,hs.2⟩
      have hpre : ∀ r ∈ (List.range j).map (fun i => clock (i+1)), r ≤ g.lastStmp := by
        intro r hr
        obtain ⟨i,hi,rfl⟩ := List.mem_map.mp hr
        exact le_of_not_usable (hfirst (i+1) (Nat.succ_lt_succ (List.mem_range.mp hi)))
      refine ⟨0,by decide,?_⟩
      rw [List.range_succ_eq_map,List.map_cons,List.map_map,List.range_succ,List.map_append]
      exact next_spins hs hpre hlt
  · have hj0 : j = 0 := by
      by_contra hn
      exact hfirst 0 (Nat.pos_of_ne_zero hn) ⟨Int64.not_lt.mp h0,hs⟩
    subst hj0
    obtain ⟨⟨out,g'⟩,hn⟩ := next_of_not_spins hs []
    rcases next_cases hn with ⟨rfl,rfl⟩ | ⟨t,q,rfl,rfl,ht,hcase⟩
    · exact absurd (next_error_iff.mp hn).1 h0
    · rw [List.mem_singleton] at ht
      subst ht
      refine ⟨q,?_,hn⟩
      rcases hcase with ⟨_,rfl,hne⟩ | ⟨_,rfl⟩
      · obtain ⟨hv,hlt⟩ := masked_succ hq hne
        omega
      · decide

private theorem next_none (h0 : ¬ clock 0 < g.lastStmp) (h : ∀ j, ¬ Usable g (clock j)) (k : Nat) :
    g.next ((List.range k).map clock) = none := by
  cases k with
  | zero => rfl
  | succ k =>
    have hspins : Spins g (clock 0) := by
      by_contra hs
      exact h 0 ⟨Int64.not_lt.mp h0,hs⟩
    rw [List.range_succ_eq_map,List.map_cons]
    apply next_spins_on hspins
    intro r hr
    obtain ⟨i,_,rfl⟩ := List.mem_map.mp hr
    exact le_of_not_usable (h i)

/-! ## The timestamp field -/

private theorem bits_timestamp (id : Int64) :
    bits (timestamp id) = bits (id >>> TIMESTMP_LEFT) % 2^41 := by
  rw [timestamp,bits_and,show bits ((-1 : Int64) ^^^ ((-1 : Int64) <<< 41)) = 2^41-1 from rfl,
    Nat.and_two_pow_sub_one_eq_mod]

/-- The field is as wide as the window, so it is right only for readings inside. -/
theorem Documented.window {t id : Int64} (h : Documented t id) (h0 : 0 ≤ t) : InWindow t := by
  have hlt : bits (t - START_STMP) < 2^41 := by
    rw [← h.field,bits_timestamp]
    exact Nat.mod_lt _ (by decide)
  have ht : 0 ≤ t.toInt := Int64.le_iff_toInt_le.mp h0
  have hhi := t.toInt_lt
  have hstart : START_STMP.toInt = 1571103458728 := rfl
  have hsub := toInt_sub_eq (a := t) (b := START_STMP) (by omega) (by omega)
  have hbits := toInt_eq_bits (a := t - START_STMP) (by omega)
  unfold InWindow
  omega

private theorem documented_of_window {t q : Int64} (ht : InWindow t) (hd : bits g.datacenterId < 2^5)
    (hm : bits g.machineId < 2^5) (hq : bits q < 2^12) : Documented t (g.compose t q) := by
  have hdec := compose_decodes ht hd hm hq
  refine ⟨hdec.nonneg,bits_inj.mp ?_⟩
  rw [bits_timestamp,hdec.stmp,ht.sub.1,Nat.mod_eq_of_lt ht.elapsed_lt.1]

end Call

/-- The exact condition for a call from any reachable state on any clock since 1970: its
first reading is refused, or the first reading it can use lies in the window. -/
theorem layout_kept_iff (d m : Int64) (s : Trace) (h : Reaches d m s) (clock : Nat → Int64)
    (hc : ∀ n, 0 ≤ clock n) :
    KeepsLayout s.gen clock ↔ clock 0 < s.gen.lastStmp ∨
      ∃ j, Usable s.gen (clock j) ∧ (∀ i < j, ¬ Usable s.gen (clock i)) ∧ InWindow (clock j) := by
  obtain ⟨g,calls,hn,hp,he⟩ := h
  obtain ⟨rfl,hd,hm⟩ := new_ok hn
  have ho := run_ordered (show bits 0 < 2^12 by decide) hp he
  replace hd : bits s.gen.datacenterId < 2^5 := by rwa [ho.datacenter]
  replace hm : bits s.gen.machineId < 2^5 := by rwa [ho.machine]
  by_cases h0 : clock 0 < s.gen.lastStmp
  · refine iff_of_true ⟨1,.error clockMovedBackwards,s.gen,?_,nofun⟩ (.inl h0)
    exact next_error_iff.mpr ⟨h0,rfl,rfl,rfl⟩
  constructor
  · rintro ⟨k,out,g',hk,hdoc⟩
    right
    by_cases hex : ∃ j, Usable s.gen (clock j)
    · classical
      have hj := Nat.find_spec hex
      have hfirst : ∀ i < Nat.find hex, ¬ Usable s.gen (clock i) := fun i hi => Nat.find_min hex hi
      obtain ⟨q,_,hcall⟩ := next_first ho.sequence h0 hj hfirst
      cases next_unique hk hcall
      exact ⟨_,hj,hfirst,(hdoc _ rfl).window (hc _)⟩
    · rw [next_none h0 (not_exists.mp hex)] at hk
      cases hk
  · rintro (hlt | ⟨j,hj,hfirst,hw⟩)
    · exact absurd hlt h0
    · obtain ⟨q,hq,hcall⟩ := next_first ho.sequence h0 hj hfirst
      refine ⟨j+1,_,_,hcall,?_⟩
      rintro id ⟨⟩
      exact documented_of_window hw hd hm hq

theorem layout_kept_last_millisecond :
    KeepsLayout { datacenterId := 31, machineId := 31 } (fun _ => START_STMP + 2199023255551) := by
  have hr : Reaches 31 31 ⟨{ datacenterId := 31, machineId := 31 },[]⟩ := ⟨_,[],rfl,nofun,rfl⟩
  have hw : InWindow (START_STMP + 2199023255551) := ⟨by decide,by decide⟩
  refine (layout_kept_iff 31 31 _ hr _ fun _ => by decide).mpr (.inr ⟨0,⟨by decide,?_⟩,nofun,hw⟩)
  exact fun hs => absurd hs.1 (by decide)

/-- Both ends of the window: one millisecond before the start and at 2^41 milliseconds
after it the id is negative, and after 2^42 it says what it says at the start. -/
theorem readings_outside_encoded :
    let g : SnowFlake := { datacenterId := 1, machineId := 1 }
    let encoded (t : Int64) : Option Int64 :=
      match g.next [t] with
      | some ((.ok id,_),[]) => some id
      | _ => none
    Reaches 1 1 ⟨g,[]⟩ ∧ encoded (START_STMP - 1) = some (-4059136) ∧
      encoded (START_STMP + 2199023255552) = some (-9223372036854640640) ∧
      encoded (START_STMP + 4398046511104) = encoded START_STMP ∧
      ¬ KeepsLayout g (fun _ => START_STMP - 1) := by
  intro g encoded
  refine ⟨⟨_,[],rfl,nofun,rfl⟩,by decide,by decide,by decide,?_⟩
  rintro ⟨k,out,g',hk,hdoc⟩
  have hn : g.next ((List.range 1).map fun _ => START_STMP - 1) =
      some ((.ok (g.compose (START_STMP - 1) 0),{ g with lastStmp := START_STMP - 1 }),[]) := by decide
  cases next_unique hk hn
  exact absurd (hdoc _ rfl).sign (by decide)

end CloudWeb.Sequence.SnowFlakeSequence
