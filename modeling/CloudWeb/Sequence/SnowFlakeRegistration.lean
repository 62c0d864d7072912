import Mathlib.Data.Finset.Image
import CloudWeb.Sequence.SnowFlakeAutoSequence

/-! The registration of a `SnowFlakeAutoSequence` against the keys Redis already has. The
loops only ever ask for datacenter 1, and for machine ids far beyond five bits. -/
namespace CloudWeb.Sequence.SnowFlakeAutoSequence
open Java Foundation SnowFlake

/-- Redis, with nobody else at work: `setIfAbsent` creates an absent key and says so. -/
def setIfAbsent (keys : Finset String) (q : SetIfAbsent) : Reply × Finset String :=
  if q.key ∈ keys then (.ok (some false),keys) else (.ok (some true),insert q.key keys)

def nameSpaceOf (name : String) : String := "concurrent:snow-flake:" ++ name

def Fits (dc machine : Nat) : Prop :=
  (1 ≤ dc ∧ dc ≤ bits MAX_DATACENTER_NUM) ∧ 1 ≤ machine ∧ machine ≤ bits MAX_MACHINE_NUM

/-- If a fitting pair is free, registration takes one; otherwise it throws. -/
def Allocates (name : String) (keys : Finset String) : Prop :=
  let ns := nameSpaceOf name
  let (out,keys') := (new name).run setIfAbsent keys
  ((∃ dc machine, Fits dc machine ∧ machineKey ns dc machine ∉ keys) →
    ∃ self dc machine, out = .ok self ∧ Fits dc machine ∧ self.datacenterId = Int64.ofNat dc ∧
      self.machineId = Int64.ofNat machine ∧ self.redisKey = some (machineKey ns dc machine) ∧
      machineKey ns dc machine ∉ keys ∧ keys' = insert (machineKey ns dc machine) keys) ∧
  ((∀ dc machine, Fits dc machine → machineKey ns dc machine ∈ keys) →
    (∃ message, out = .error (.distributedSequence message)) ∧ keys' = keys)

section Loops
variable {name : String} {self : SnowFlakeAutoSequence} {keys : Finset String} {i d : Nat}
  {isRegister : Option Bool} {k : Bool → SnowFlakeAutoSequence → Registration}

private theorem registerMachine_run_busy (hi : i ≤ 4096)
    (hkey : machineKey self.nameSpace 1 (i+1) ∈ keys) :
    (registerMachine self 1 i isRegister k).run setIfAbsent keys =
      (registerMachine (self.tried (machineKey self.nameSpace 1 (i+1)) (i+1)) 1 (i+1) (some false) k).run
        setIfAbsent keys := by
  rw [registerMachine_try hi,Program.run]
  simp only [setIfAbsent,if_pos hkey,Option.some.injEq,Bool.false_eq_true,if_false]

private theorem registerMachine_run_free (hi : i ≤ 4096)
    (hkey : machineKey self.nameSpace 1 (i+1) ∉ keys) :
    (registerMachine self 1 i isRegister k).run setIfAbsent keys =
      (k true (self.tried (machineKey self.nameSpace 1 (i+1)) (i+1))).run setIfAbsent
        (insert (machineKey self.nameSpace 1 (i+1)) keys) := by
  rw [registerMachine_try hi,Program.run]
  simp only [setIfAbsent,if_neg hkey,if_true]

private theorem registerMachine_takes (self : SnowFlakeAutoSequence) (isRegister : Option Bool)
    (k : Bool → SnowFlakeAutoSequence → Registration) (n : Nat) (hi : i+n ≤ 4096)
    (hbusy : ∀ m, i < m → m ≤ i+n → machineKey self.nameSpace 1 m ∈ keys)
    (hfree : machineKey self.nameSpace 1 (i+n+1) ∉ keys) :
    (registerMachine self 1 i isRegister k).run setIfAbsent keys =
      (k true (self.tried (machineKey self.nameSpace 1 (i+n+1)) (i+n+1))).run setIfAbsent
        (insert (machineKey self.nameSpace 1 (i+n+1)) keys) := by
  -- by the busy slots in front of the free one
  induction n generalizing i self isRegister with
  | zero => exact registerMachine_run_free hi hfree
  | succ n ih =>
    have he : i+(n+1) = i+1+n := by omega
    rw [he] at hi hbusy hfree ⊢
    rw [registerMachine_run_busy (by omega) (hbusy (i+1) (by omega) (by omega))]
    exact ih (self.tried (machineKey self.nameSpace 1 (i+1)) (i+1)) (some false) hi
      (fun m hm hm' => hbusy m (by omega) hm') hfree

private theorem registerMachine_fails (self : SnowFlakeAutoSequence)
    (k : Bool → SnowFlakeAutoSequence → Registration) (n : Nat) (hi : i+n = 4097)
    (hbusy : ∀ m, i < m → m ≤ 4097 → machineKey self.nameSpace 1 m ∈ keys) :
    ∃ self', self'.nameSpace = self.nameSpace ∧
      (registerMachine self 1 i (some false) k).run setIfAbsent keys =
        (k false self').run setIfAbsent keys := by
  -- by the tries left
  induction n generalizing i self with
  | zero =>
    refine ⟨self,rfl,?_⟩
    rw [registerMachine_break (by omega) (by decide)]
    rfl
  | succ n ih =>
    rw [registerMachine_run_busy (by omega) (hbusy (i+1) (by omega) (by omega))]
    exact ih (self.tried (machineKey self.nameSpace 1 (i+1)) (i+1)) (by omega)
      fun m hm hm' => hbusy m (by omega) hm'

private theorem register_fails (n : Nat) (hd : d+n = 131072)
    (hbusy : ∀ m, 1 ≤ m → m ≤ 4097 → machineKey self.nameSpace 1 m ∈ keys) :
    (register self d).run setIfAbsent keys = (.error (.distributedSequence none),keys) := by
  -- by the passes left, all of which try the same slots
  induction n generalizing d self with
  | zero =>
    rw [register_break (by omega)]
    rfl
  | succ n ih =>
    rw [register_try (by omega)]
    obtain ⟨self',hn,hrun⟩ := registerMachine_fails { self with datacenterId := Int64.ofNat (d+1) }
      (fun isRegister self =>
        if isRegister then .done (.ok { self with datacenterId := 1 }) else register self (d+1))
      4097 rfl hbusy
    rw [hrun,if_neg Bool.false_ne_true]
    refine ih (by omega) fun m hm hm' => ?_
    rw [hn]
    exact hbusy m hm hm'

end Loops

private theorem new_takes {name : String} {keys : Finset String} {n : Nat} (hn : n ≤ 4096)
    (hbusy : ∀ m, 1 ≤ m → m ≤ n → machineKey (nameSpaceOf name) 1 m ∈ keys)
    (hfree : machineKey (nameSpaceOf name) 1 (n+1) ∉ keys) :
    (new name).run setIfAbsent keys =
      (.ok (registeredAt name (n+1)),insert (machineKey (nameSpaceOf name) 1 (n+1)) keys) := by
  have hrun := registerMachine_takes (i := 0)
    { datacenterId := Int64.ofNat 1, machineId := 0, nameSpace := nameSpaceOf name } (some false)
    (fun isRegister self =>
      if isRegister then .done (.ok { self with datacenterId := 1 }) else register self 1)
    n (by omega) (fun m hm hm' => hbusy m hm (by omega)) (by rwa [Nat.zero_add])
  rw [Nat.zero_add,if_pos rfl] at hrun
  rw [new,register_try (by decide)]
  exact hrun

/-- The smallest free machine id of datacenter 1, if there is one up to 4097. -/
theorem new_run (name : String) (keys : Finset String) :
    (∃ m, 1 ≤ m ∧ m ≤ 4097 ∧ (∀ j, 1 ≤ j → j < m → machineKey (nameSpaceOf name) 1 j ∈ keys) ∧
      machineKey (nameSpaceOf name) 1 m ∉ keys ∧ (new name).run setIfAbsent keys =
        (.ok (registeredAt name m),insert (machineKey (nameSpaceOf name) 1 m) keys)) ∨
    ((∀ m, 1 ≤ m → m ≤ 4097 → machineKey (nameSpaceOf name) 1 m ∈ keys) ∧
      (new name).run setIfAbsent keys = (.error (.distributedSequence none),keys)) := by
  by_cases h : ∃ m, 1 ≤ m ∧ m ≤ 4097 ∧ machineKey (nameSpaceOf name) 1 m ∉ keys
  · left
    have hmin := Nat.find_spec h
    have hleast (j : Nat) (h1 : 1 ≤ j) (hj : j < Nat.find h) : machineKey (nameSpaceOf name) 1 j ∈ keys := by
      by_contra hn
      exact Nat.find_min h hj ⟨h1,hj.le.trans hmin.2.1,hn⟩
    obtain ⟨n,hn⟩ := Nat.exists_eq_add_of_le' hmin.1
    rw [hn] at hmin hleast
    refine ⟨n+1,hmin.1,hmin.2.1,hleast,hmin.2.2,?_⟩
    exact new_takes (by omega) (fun m hm hm' => hleast m hm (by omega)) hmin.2.2
  · right
    have hall (m : Nat) (h1 : 1 ≤ m) (hm : m ≤ 4097) : machineKey (nameSpaceOf name) 1 m ∈ keys := by
      by_contra hn
      exact h ⟨m,h1,hm,hn⟩
    exact ⟨hall,register_fails 131072 rfl hall⟩

private theorem fits_iff {dc machine : Nat} :
    Fits dc machine ↔ (1 ≤ dc ∧ dc ≤ 31) ∧ 1 ≤ machine ∧ machine ≤ 31 := by
  rw [Fits,show bits MAX_DATACENTER_NUM = 31 from rfl,show bits MAX_MACHINE_NUM = 31 from rfl]

private theorem machineKey_inj {ns : String} {dc m n : Nat} (h : machineKey ns dc m = machineKey ns dc n) :
    m = n := by
  have hvalue (k : Nat) : valueOf k = toString k := if_neg (Int.not_lt.mpr (Int.natCast_nonneg k))
  have hs : toString m = toString n := (String.append_right_inj _).mp h
  have hmn : (m : Int) = n :=
    valueOf_inj (Int.natCast_nonneg m) (Int.natCast_nonneg n) (by rw [hvalue,hvalue,hs])
  omega

theorem Allocates.le {name : String} {keys keys' : Finset String} {m : Nat} (h : Allocates name keys)
    (hm : m ≤ 4097) (hrun : (new name).run setIfAbsent keys = (.ok (registeredAt name m),keys')) : m ≤ 31 := by
  simp only [Allocates,hrun] at h
  obtain ⟨hsome,hnone⟩ := h
  by_cases hpair : ∃ dc machine, Fits dc machine ∧ machineKey (nameSpaceOf name) dc machine ∉ keys
  · obtain ⟨self,dc,machine,ho,hfits,_,hid,_⟩ := hsome hpair
    cases ho
    have hb := congrArg bits hid
    have hle := (fits_iff.mp hfits).2.2
    rw [bits_machineId hm,bits_ofNat (by omega)] at hb
    omega
  · obtain ⟨⟨message,ho⟩,_⟩ := hnone fun dc machine hfits => by
      by_contra hn
      exact hpair ⟨dc,machine,hfits,hn⟩
    cases ho

/-- Registration is as it should be exactly when datacenter 1 has a fitting machine id
free, or when nothing that fits is free and nothing else the loops try is free either. -/
theorem allocates_iff (name : String) (keys : Finset String) :
    Allocates name keys ↔
      (∃ machine, Fits 1 machine ∧ machineKey (nameSpaceOf name) 1 machine ∉ keys) ∨
      ((∀ dc machine, Fits dc machine → machineKey (nameSpaceOf name) dc machine ∈ keys) ∧
        ∀ machine, 1 ≤ machine → machine ≤ 4097 → machineKey (nameSpaceOf name) 1 machine ∈ keys) := by
  rcases new_run name keys with ⟨m,h1,hm,hbusy,hfree,hrun⟩ | ⟨hall,hrun⟩
  · constructor
    · intro h
      exact .inl ⟨m,fits_iff.mpr ⟨by decide,h1,h.le hm hrun⟩,hfree⟩
    · simp only [Allocates,hrun]
      rintro (⟨machine,hfits,hn⟩ | ⟨_,hall⟩)
      · have hle : m ≤ machine := by
          by_contra hlt
          exact hn (hbusy machine (fits_iff.mp hfits).2.1 (by omega))
        have hfits' : Fits 1 m := fits_iff.mpr ⟨by decide,h1,hle.trans (fits_iff.mp hfits).2.2⟩
        exact ⟨fun _ => ⟨_,1,m,rfl,hfits',rfl,rfl,rfl,hfree,rfl⟩,fun hall => absurd (hall 1 m hfits') hfree⟩
      · exact absurd (hall m h1 hm) hfree
  · simp only [Allocates,hrun]
    constructor
    · rintro ⟨hsome,_⟩
      refine .inr ⟨fun dc machine hfits => ?_,hall⟩
      by_contra hn
      obtain ⟨self,_,_,ho,_⟩ := hsome ⟨dc,machine,hfits,hn⟩
      cases ho
    · rintro (⟨machine,hfits,hn⟩ | ⟨hfit,_⟩)
      · have hle := (fits_iff.mp hfits).2.2
        exact absurd (hall machine (fits_iff.mp hfits).2.1 (by omega)) hn
      · refine ⟨?_,fun _ => ⟨⟨none,rfl⟩,trivial⟩⟩
        rintro ⟨dc,machine,hfits,hn⟩
        exact absurd (hfit dc machine hfits) hn

/-- With the 31 machines of datacenter 1 taken and nothing else, machine id 32 is handed
out, although machine 1 of datacenter 2 is free. -/
theorem full_datacenter_overruns :
    let keys := (Finset.range 31).image fun m => machineKey (nameSpaceOf "order") 1 (m+1)
    (new "order").run setIfAbsent keys = (.ok (registeredAt "order" 32),
      insert (machineKey (nameSpaceOf "order") 1 32) keys) ∧
      Fits 2 1 ∧ machineKey (nameSpaceOf "order") 2 1 ∉ keys ∧ ¬ Allocates "order" keys := by
  intro keys
  have hbusy : ∀ m, 1 ≤ m → m ≤ 31 → machineKey (nameSpaceOf "order") 1 m ∈ keys := by
    intro m h1 hm
    exact Finset.mem_image.mpr ⟨m-1,Finset.mem_range.mpr (by omega),by rw [Nat.sub_add_cancel h1]⟩
  have hfree : machineKey (nameSpaceOf "order") 1 32 ∉ keys := by
    intro hmem
    obtain ⟨j,hj,he⟩ := Finset.mem_image.mp hmem
    have hlt := Finset.mem_range.mp hj
    have heq := machineKey_inj he
    omega
  have hother : machineKey (nameSpaceOf "order") 2 1 ∉ keys := by
    intro hmem
    obtain ⟨j,_,he⟩ := Finset.mem_image.mp hmem
    simp only [machineKey,String.append_assoc,String.append_right_inj] at he
    have hhead : (Nat.toDigits 10 1).head?.getD ':' = (Nat.toDigits 10 2).head?.getD ':' := by
      simpa using congrArg (fun s : String => s.toList.head?) he
    exact absurd hhead (by decide)
  have hrun := new_takes (by decide) hbusy hfree
  refine ⟨hrun,fits_iff.mpr (by decide),hother,fun h => ?_⟩
  exact absurd (h.le (by decide) hrun) (by decide)

end CloudWeb.Sequence.SnowFlakeAutoSequence
