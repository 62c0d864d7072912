import CloudWeb.Java.Long

/-! `ZookeeperSequence`: every number is a new sequential node of ZooKeeper, whose name is
the prefix and the parent's 32-bit counter. One parser reads the created path, another
the names the cleanup lists. -/
namespace CloudWeb.Sequence
open Java

structure ZookeeperSequence where
  zNodeName : String
  deriving DecidableEq, Repr

namespace ZookeeperSequence

def Z_NODE_PREFIX : String := "0"

def IntRange (n : Int) : Prop := -2147483648 ≤ n ∧ n ≤ 2147483647

instance (n : Int) : Decidable (IntRange n) := inferInstanceAs (Decidable (_ ∧ _))

/-- ZooKeeper's name for the sequential node of counter value `n`: the last part of the
given path and the counter as `%010d`. -/
def child (n : Int) : String := Z_NODE_PREFIX ++ formatPadded 10 n

def prefixPath (self : ZookeeperSequence) : String := self.zNodeName ++ "/" ++ Z_NODE_PREFIX

/-- The path `create` returns. -/
def createdPath (self : ZookeeperSequence) (n : Int) : String := self.zNodeName ++ "/" ++ child n

/-- What `next()` reads from the created path, `none` where `Long.valueOf` throws. -/
def numOf (self : ZookeeperSequence) (path : String) : Option Int :=
  parseLong (String.ofList (path.toList.drop self.prefixPath.toList.length))

/-- What the cleanup reads from a name. -/
def childNumber (p : String) : Option Int := parseLong p

/-- The cleanup's test `p.indexOf(Z_NODE_PREFIX) == 0 && num > Long.valueOf(p)`. -/
def selects (num : Int) (p : String) : Option Bool :=
  if Z_NODE_PREFIX.toList.isPrefixOf p.toList then (childNumber p).map fun n => decide (num > n)
  else some false

theorem toList_child (n : Int) : (child n).toList = '0' :: (formatPadded 10 n).toList := by
  rw [child,String.toList_append]
  rfl

theorem IntRange.long {n : Int} (h : IntRange n) : Long.InRange n := by
  unfold IntRange at h
  unfold Long.InRange Long.MIN_VALUE Long.MAX_VALUE
  omega

private theorem numOf_createdPath (self : ZookeeperSequence) {n : Int} (h : IntRange n) :
    self.numOf (self.createdPath n) = some n := by
  have hpath : (self.createdPath n).toList =
      self.prefixPath.toList ++ (formatPadded 10 n).toList := by
    rw [createdPath,child,prefixPath]
    simp only [String.toList_append,List.append_assoc]
  rw [numOf,hpath,List.drop_left,String.ofList_toList,parseLong_formatPadded 10 h.long]

/-- The whole name is a number unless a sign stands behind the prefix. -/
theorem childNumber_child {n : Int} (h : IntRange n) :
    childNumber (child n) = if n < 0 then none else some n := by
  rw [childNumber,← parseLong_zero_formatPadded 10 h.long,← toList_child,String.ofList_toList]

theorem selects_child (num : Int) {n : Int} (h : IntRange n) :
    selects num (child n) = if n < 0 then none else some (decide (n < num)) := by
  have hp : Z_NODE_PREFIX.toList.isPrefixOf (child n).toList = true := by
    rw [toList_child]
    rfl
  rw [selects,if_pos hp,childNumber_child h]
  split
  · rfl
  · rfl

/-- The parsers agree where `n` is issued and the child of `m` is looked at. -/
def Agree (self : ZookeeperSequence) (n m : Int) : Prop :=
  self.numOf (self.createdPath n) = some n ∧ self.numOf (self.createdPath m) = some m ∧
  childNumber (child m) = some m ∧ selects n (child m) = some (decide (m < n))

instance (self : ZookeeperSequence) (n m : Int) : Decidable (self.Agree n m) :=
  inferInstanceAs (Decidable (_ ∧ _))

/-- The cleanup reads exactly the children with a counter that has not wrapped. -/
theorem agree_iff_nonneg (self : ZookeeperSequence) (n m : Int) (hn : IntRange n) (hm : IntRange m) :
    self.Agree n m ↔ 0 ≤ m := by
  constructor
  · rintro ⟨_,_,hc,_⟩
    rw [childNumber_child hm] at hc
    split at hc
    · cases hc
    · next h => exact not_lt.mp h
  · intro h
    refine ⟨self.numOf_createdPath hn,self.numOf_createdPath hm,?_,?_⟩
    · rw [childNumber_child hm,if_neg (not_lt.mpr h)]
    · rw [selects_child n hm,if_neg (not_lt.mpr h)]

theorem agree_at_limit : (⟨"/order-no"⟩ : ZookeeperSequence).Agree 2147483647 2147483646 :=
  (agree_iff_nonneg ⟨"/order-no"⟩ 2147483647 2147483646 (by decide) (by decide)).mpr (by decide)

theorem disagree_after_wrap :
    let self : ZookeeperSequence := ⟨"/order-no"⟩
    IntRange (-1) ∧ child (-1) = "0-000000001" ∧ self.numOf (self.createdPath (-1)) = some (-1) ∧
      childNumber (child (-1)) = none ∧ selects (-1) (child (-1)) = none ∧
      ¬ self.Agree (-1) (-1) := by
  decide +kernel

end ZookeeperSequence
end CloudWeb.Sequence
