import CloudWeb.Sequence.SnowFlakeSequence

/-! The order of the ids of several `SnowFlakeSequence` instances: that of the milliseconds
they are made of, and within one millisecond that of the fields behind. -/
namespace CloudWeb.Sequence.SnowFlakeSequence
open Java Foundation SnowFlake

/-- The fields of an id in the order of their places, compared as in a dictionary. -/
def Earlier (d m : Int64) (e : Issue) (d' m' : Int64) (e' : Issue) : Prop :=
  e.stmp < e'.stmp ∨ e.stmp = e'.stmp ∧
    (d < d' ∨ d = d' ∧ (m < m' ∨ m = m' ∧ e.sequence < e'.sequence))

instance (d m : Int64) (e : Issue) (d' m' : Int64) (e' : Issue) : Decidable (Earlier d m e d' m' e') :=
  inferInstanceAs (Decidable (_ ∨ _))

private theorem digits_lt_iff {t d m q t' d' m' q' : Nat} (hd : d < 2^5) (hm : m < 2^5) (hq : q < 2^12)
    (hd' : d' < 2^5) (hm' : m' < 2^5) (hq' : q' < 2^12) :
    t * 2^22 + d * 2^17 + m * 2^12 + q < t' * 2^22 + d' * 2^17 + m' * 2^12 + q' ↔
      t < t' ∨ t = t' ∧ (d < d' ∨ d = d' ∧ (m < m' ∨ m = m' ∧ q < q')) := by
  omega

private theorem field_lt_iff {a b : Int64} {k : Nat} (hk : k < 63) (ha : bits a < 2^k)
    (hb : bits b < 2^k) :
    a < b ↔ bits a < bits b := by
  have hle : 2^k ≤ 2^63 := Nat.pow_le_pow_right (by decide) hk.le
  rw [Int64.lt_iff_toInt_lt,toInt_eq_bits (ha.trans_le hle),toInt_eq_bits (hb.trans_le hle),Int.ofNat_lt]

private theorem stmp_lt_iff {t t' : Int64} (h : InWindow t) (h' : InWindow t') :
    t < t' ↔ elapsed t < elapsed t' := by
  have he := h.elapsed_lt.2
  have he' := h'.elapsed_lt.2
  rw [Int64.lt_iff_toInt_lt]
  omega

private theorem stmp_eq_iff {t t' : Int64} (h : InWindow t) (h' : InWindow t') :
    t = t' ↔ elapsed t = elapsed t' := by
  have he := h.elapsed_lt.2
  have he' := h'.elapsed_lt.2
  rw [← Int64.toInt_inj]
  omega

private theorem Runs.value {d m : Int64} {s : Trace} (h : Runs d m s) {e : Issue} (he : e ∈ s.issued) :
    InWindow e.stmp ∧ bits d < 2^5 ∧ bits m < 2^5 ∧ bits e.sequence < 2^12 ∧
      e.id.toInt = (elapsed e.stmp * 2^22 + bits d * 2^17 + bits m * 2^12 + bits e.sequence : Nat) := by
  obtain ⟨ho,hd,hm⟩ := h.ordered
  obtain ⟨hid,hq,hw⟩ := ho.made e he
  obtain ⟨hl,hpos⟩ := bits_compose (g := { datacenterId := d, machineId := m }) hw
    (hd.trans (by decide)) (hm.trans (by decide)) hq
  refine ⟨hw,hd,hm,hq,?_⟩
  rw [hid,toInt_eq_bits hpos,hl,layout_eq_sum hd hm hq]

/-- Over any runs of any two instances, under any clocks: ids compare as the millisecond,
the data center, the machine and the sequence number they were made of, so ids of
different milliseconds are in the order of time across all instances. -/
theorem ids_ordered_by_fields (d m d' m' : Int64) (s s' : Trace) (h : Runs d m s) (h' : Runs d' m' s') :
    ∀ e ∈ s.issued, ∀ e' ∈ s'.issued, e.id < e'.id ↔ Earlier d m e d' m' e' := by
  intro e he e' he'
  obtain ⟨hw,hd,hm,hq,hv⟩ := h.value he
  obtain ⟨hw',hd',hm',hq',hv'⟩ := h'.value he'
  calc
    e.id < e'.id ↔ elapsed e.stmp * 2^22 + bits d * 2^17 + bits m * 2^12 + bits e.sequence <
        elapsed e'.stmp * 2^22 + bits d' * 2^17 + bits m' * 2^12 + bits e'.sequence := by
      rw [Int64.lt_iff_toInt_lt,hv,hv',Int.ofNat_lt]
    _ ↔ _ := digits_lt_iff hd hm hq hd' hm' hq'
    _ ↔ Earlier d m e d' m' e' := by
      rw [Earlier,stmp_lt_iff hw hw',stmp_eq_iff hw hw',field_lt_iff (by decide) hd hd',
        field_lt_iff (by decide) hm hm',field_lt_iff (by decide) hq hq',← bits_inj (a := d),
        ← bits_inj (a := m)]

theorem ids_ordered_across_instances :
    ∃ s s', exec step ⟨{ datacenterId := 1, machineId := 2 },[]⟩ [[START_STMP + 5],[START_STMP + 6]] = some s ∧
      exec step ⟨{ datacenterId := 1, machineId := 1 },[]⟩ [[START_STMP + 6]] = some s' ∧
      ∀ e ∈ s.issued, ∀ e' ∈ s'.issued, e.id < e'.id ↔ e.stmp < e'.stmp := by
  have h₅ : InWindow (START_STMP + 5) := ⟨by decide,by decide⟩
  have h₆ : InWindow (START_STMP + 6) := ⟨by decide,by decide⟩
  have hr : ∃ s, exec step ⟨{ datacenterId := 1, machineId := 2 },[]⟩
      [[START_STMP + 5],[START_STMP + 6]] = some s ∧ Runs 1 2 s :=
    ⟨_,rfl,_,[[START_STMP + 5],[START_STMP + 6]],rfl,by simp [h₅,h₆],rfl⟩
  have hr' : ∃ s, exec step ⟨{ datacenterId := 1, machineId := 1 },[]⟩ [[START_STMP + 6]] = some s ∧
      Runs 1 1 s := ⟨_,rfl,_,[[START_STMP + 6]],rfl,by simp [h₆],rfl⟩
  obtain ⟨s,hs,hr⟩ := hr
  obtain ⟨s',hs',hr'⟩ := hr'
  refine ⟨s,s',hs,hs',fun e he e' he' => ?_⟩
  rw [ids_ordered_by_fields 1 2 1 1 s s' hr hr' e he e' he',Earlier]
  have hdm : ¬ ((1 : Int64) < 1) ∧ ¬ ((2 : Int64) < 1) ∧ (2 : Int64) ≠ 1 := by decide
  simp [hdm]

end CloudWeb.Sequence.SnowFlakeSequence
