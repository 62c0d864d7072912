import CloudWeb.Foundation.Execution
import Mathlib.Order.Lattice
import Mathlib.Data.List.Pairwise
import Mathlib.Data.List.Nodup

/-! What a distributed number generator is for. Owners reserve half-open segments
of one linear order, newest above all older ones, and hand out numbers upwards from
segments of their own. Nothing here says how a reservation is agreed on. -/
namespace CloudWeb.Foundation
variable {ι α : Type*} [LinearOrder α]

/-- One granted segment `[lo, hi)`. -/
structure Reservation (ι α : Type*) where
  owner : ι
  lo : α
  hi : α
  deriving DecidableEq, Repr

def Reservation.Holds (r : Reservation ι α) (n : α) : Prop := r.lo ≤ n ∧ n < r.hi

instance (r : Reservation ι α) (n : α) : Decidable (r.Holds n) :=
  inferInstanceAs (Decidable (_ ∧ _))

/-- Newest first: each segment starts at or above the end of every older one. -/
def Stacked (ledger : List (Reservation ι α)) : Prop :=
  ledger.Pairwise fun newer older => older.hi ≤ newer.lo

/-- Some segment of owner `i` holds `n`. -/
def Owned (ledger : List (Reservation ι α)) (i : ι) (n : α) : Prop :=
  ∃ r ∈ ledger, r.owner = i ∧ r.Holds n

theorem Stacked.cons {ledger : List (Reservation ι α)} {r : Reservation ι α} (h : Stacked ledger)
    (hr : ∀ q ∈ ledger, q.hi ≤ r.lo) : Stacked (r :: ledger) :=
  List.pairwise_cons.mpr ⟨hr,h⟩

theorem Stacked.unique {ledger : List (Reservation ι α)} (h : Stacked ledger)
    {r q : Reservation ι α} (hr : r ∈ ledger) (hq : q ∈ ledger) {n : α}
    (hrn : r.Holds n) (hqn : q.Holds n) : r = q := by
  by_contra hne
  let apart (a b : Reservation ι α) : Prop := a.hi ≤ b.lo ∨ b.hi ≤ a.lo
  have : Std.Symm apart := ⟨fun _ _ => Or.symm⟩
  have hp : ledger.Pairwise apart := h.imp fun hab => .inr hab
  have hd : r.hi ≤ q.lo ∨ q.hi ≤ r.lo := hp.forall hr hq hne
  rcases hd with hd | hd
  · exact absurd (hrn.2.trans_le hd) (not_lt.mpr hqn.1)
  · exact absurd (hqn.2.trans_le hd) (not_lt.mpr hrn.1)

theorem Stacked.owner_unique {ledger : List (Reservation ι α)} (h : Stacked ledger) {i j : ι}
    {n : α} (hi : Owned ledger i n) (hj : Owned ledger j n) : i = j := by
  obtain ⟨r,hr,rfl,hrn⟩ := hi
  obtain ⟨q,hq,rfl,hqn⟩ := hj
  rw [h.unique hr hq hrn hqn]

theorem Owned.mono {ledger : List (Reservation ι α)} (r : Reservation ι α) {i : ι} {n : α}
    (h : Owned ledger i n) : Owned (r :: ledger) i n := by
  obtain ⟨q,hq,ho,hn⟩ := h
  exact ⟨q,List.mem_cons_of_mem r hq,ho,hn⟩

theorem Owned.head {ledger : List (Reservation ι α)} {r : Reservation ι α} {n : α}
    (h : r.Holds n) : Owned (r :: ledger) r.owner n := ⟨r,List.mem_cons_self,rfl,h⟩

/-- The abstract generator: what is reserved, how far each seat has got, what was
issued. Successive owners may share a seat, as the incarnations of one process do. -/
structure Dispenser (ι κ α : Type*) where
  ledger : List (Reservation ι α)
  cursor : κ → α
  issued : List (ι × α)

namespace Dispenser
variable {κ : Type*} [DecidableEq κ] {seat : ι → κ}

/-- The three moves of the abstract generator: reserve above everything reserved,
give up numbers, issue an own number that the seat has not passed. -/
inductive Step (seat : ι → κ) : Dispenser ι κ α → Dispenser ι κ α → Prop
  | reserve (s : Dispenser ι κ α) (r : Reservation ι α) (above : ∀ q ∈ s.ledger, q.hi ≤ r.lo) :
      Step seat s { s with ledger := r :: s.ledger }
  | skip (s : Dispenser ι κ α) (k : κ) (c : α) (forward : s.cursor k ≤ c) :
      Step seat s { s with cursor := Function.update s.cursor k c }
  | issue (s : Dispenser ι κ α) (i : ι) (n c : α) (own : Owned s.ledger i n)
      (ahead : s.cursor (seat i) ≤ n) (past : n < c) :
      Step seat s { s with cursor := Function.update s.cursor (seat i) c, issued := (i,n) :: s.issued }

/-- What every run of the abstract generator keeps. -/
structure Sound (seat : ι → κ) (s : Dispenser ι κ α) : Prop where
  stacked : Stacked s.ledger
  backed : ∀ e ∈ s.issued, Owned s.ledger e.1 e.2 ∧ e.2 < s.cursor (seat e.1)
  increasing : s.issued.Pairwise fun newer older => seat newer.1 = seat older.1 → older.2 < newer.2
  distinct : s.issued.Pairwise fun newer older => newer.2 ≠ older.2

omit [DecidableEq κ] in
theorem sound_empty (cursor : κ → α) : Sound seat (⟨[],cursor,[]⟩ : Dispenser ι κ α) :=
  ⟨.nil,fun _ he => absurd he List.not_mem_nil,.nil,.nil⟩

omit [DecidableEq κ] in
private theorem fresh {s : Dispenser ι κ α} (h : Sound seat s) {i : ι} {n : α}
    (own : Owned s.ledger i n) (ahead : s.cursor (seat i) ≤ n) (e : ι × α) (he : e ∈ s.issued) :
    n ≠ e.2 := by
  rintro rfl
  obtain ⟨ho,hlt⟩ := h.backed e he
  obtain rfl := h.stacked.owner_unique own ho
  exact absurd hlt (not_lt.mpr ahead)

private theorem cursor_forward {s : Dispenser ι κ α} {k j : κ} {c n : α} (forward : s.cursor k ≤ c)
    (h : n < s.cursor j) : n < Function.update s.cursor k c j := by
  by_cases hj : j = k
  · subst hj
    rw [Function.update_self]
    exact h.trans_le forward
  · rwa [Function.update_of_ne hj]

theorem Step.sound {s t : Dispenser ι κ α} (hs : Step seat s t) (h : Sound seat s) :
    Sound seat t := by
  cases hs with
  | reserve r above =>
    exact ⟨h.stacked.cons above,fun e he => ⟨(h.backed e he).1.mono r,(h.backed e he).2⟩,
      h.increasing,h.distinct⟩
  | skip k c forward =>
    exact ⟨h.stacked,fun e he => ⟨(h.backed e he).1,cursor_forward forward (h.backed e he).2⟩,
      h.increasing,h.distinct⟩
  | issue i n c own ahead past =>
    refine ⟨h.stacked,?_,?_,?_⟩
    · intro e he
      rcases List.mem_cons.mp he with rfl | he
      · exact ⟨own,by simpa only [Function.update_self] using past⟩
      · exact ⟨(h.backed e he).1,cursor_forward (ahead.trans past.le) (h.backed e he).2⟩
    · refine List.pairwise_cons.mpr ⟨fun e he hie => ?_,h.increasing⟩
      have hi : seat i = seat e.1 := hie
      exact (hi ▸ (h.backed e he).2).trans_le ahead
    · exact List.pairwise_cons.mpr ⟨fresh h own ahead,h.distinct⟩

/-- Soundness of whole abstract runs. -/
theorem sound_run {s t : Dispenser ι κ α} (hs : Relation.ReflTransGen (Step seat) s t)
    (h : Sound seat s) : Sound seat t := by
  induction hs with
  | refl => exact h
  | tail _ hst ih => exact hst.sound ih

omit [DecidableEq κ] in
theorem Sound.nodup {s : Dispenser ι κ α} (h : Sound seat s) : (s.issued.map Prod.snd).Nodup :=
  List.pairwise_map.mpr h.distinct

omit [DecidableEq κ] in
/-- Each issued number lies in one reservation, and that one is its issuer's. -/
theorem Sound.private_segment {s : Dispenser ι κ α} (h : Sound seat s) {i : ι} {n : α}
    (he : (i,n) ∈ s.issued) :
    ∃ r ∈ s.ledger, r.owner = i ∧ r.Holds n ∧ ∀ q ∈ s.ledger, q.Holds n → q = r := by
  obtain ⟨r,hr,ho,hn⟩ := (h.backed _ he).1
  exact ⟨r,hr,ho,hn,fun q hq hqn => h.stacked.unique hq hr hqn hn⟩

end Dispenser
end CloudWeb.Foundation
