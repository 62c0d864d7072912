import Mathlib.Data.List.Pairwise
import Mathlib.Data.List.Perm.Subperm
import Mathlib.Order.Lattice

/-! Reading a list by offsets, largest key first, while the list changes. -/
namespace CloudWeb.Foundation
variable {α κ : Type*} [LinearOrder κ] {key : α → κ} {l l' : List α} {x r : α} {k : Nat}

/-- The largest key comes first, and none twice. -/
def Descending (key : α → κ) (l : List α) : Prop := l.Pairwise fun a b => key b < key a

private theorem mem_take_or_drop (k : Nat) (hr : r ∈ l) : r ∈ l.take k ∨ r ∈ l.drop k := by
  rwa [← List.take_append_drop k l,List.mem_append] at hr

theorem mem_page_or_drop (n : Nat) (hr : r ∈ l.drop k) : r ∈ (l.drop k).take n ∨ r ∈ l.drop (k+n) := by
  rw [← List.drop_drop]
  exact mem_take_or_drop n hr

private theorem Descending.lt_of_mem (h : Descending key l) (hx : x ∈ l.take k) (hr : r ∈ l.drop k) :
    key r < key x := by
  rw [Descending,← List.take_append_drop k l,List.pairwise_append] at h
  exact h.2.2 x hx r hr

/-- A larger entry comes earlier. -/
theorem Descending.mem_take (h : Descending key l) (hr : r ∈ l.take k) (hx : x ∈ l) (hlt : key r < key x) :
    x ∈ l.take k := by
  rcases mem_take_or_drop k hx with hx | hx
  · exact hx
  · exact absurd (h.lt_of_mem hr hx) hlt.asymm

/-- As long as no key is lost in front of the offset, no entry gets there from behind it. -/
theorem Descending.mem_drop (h : Descending key l) (h' : Descending key l')
    (hkeep : ∀ x ∈ l.take k, ∃ y ∈ l', key y = key x) (hr : r ∈ l.drop k) (hr' : r ∈ l') :
    r ∈ l'.drop k := by
  refine (mem_take_or_drop k hr').resolve_left fun hfront => ?_
  -- otherwise the `k` keys and that of `r` were among the first `k` of the new list
  have habove (x : α) (hx : x ∈ l.take k) : key r < key x := h.lt_of_mem hx hr
  have hnodup : (key r :: (l.take k).map key).Nodup := by
    refine List.nodup_cons.mpr ⟨fun hmem => ?_,?_⟩
    · obtain ⟨x,hx,hkey⟩ := List.mem_map.mp hmem
      exact (habove x hx).ne' hkey
    · refine List.pairwise_map.mpr ((List.Pairwise.sublist (List.take_sublist k l) h).imp fun hlt => ?_)
      exact hlt.ne'
  have hsub : key r :: (l.take k).map key ⊆ (l'.take k).map key := by
    refine List.cons_subset.mpr ⟨List.mem_map_of_mem hfront,fun c hc => ?_⟩
    obtain ⟨x,hx,rfl⟩ := List.mem_map.mp hc
    obtain ⟨y,hy,hyx⟩ := hkeep x hx
    exact hyx ▸ List.mem_map_of_mem (h'.mem_take hfront hy (hyx ▸ habove x hx))
  have hle := (List.subperm_of_subset hnodup hsub).length_le
  have hk : ¬ l.length ≤ k := fun hlen => by
    rw [List.drop_eq_nil_of_le hlen] at hr
    exact List.not_mem_nil hr
  rw [List.length_cons,List.length_map,List.length_map,List.length_take,List.length_take] at hle
  omega

end CloudWeb.Foundation
