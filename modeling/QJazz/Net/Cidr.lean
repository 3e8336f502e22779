import Mathlib.Data.Nat.Notation

/-! An address is a bit vector, and a network is given by an address and the number of leading bits
that its members share. The netmask selects these bits. -/
namespace QJazz.Net
open BitVec

variable {w : ℕ}

def netmask (w length : ℕ) : BitVec w :=
  BitVec.allOnes w <<< (w - length)

structure Cidr (w : ℕ) where
  address : BitVec w
  length : ℕ
  length_le : length ≤ w
  /-- The address has no bits behind the netmask. -/
  address_and : address &&& netmask w length = address
  deriving DecidableEq

def Cidr.contains (n : Cidr w) (a : BitVec w) : Bool :=
  decide (a &&& netmask w n.length = n.address)

def Cidr.Covers (n : Cidr w) (a : BitVec w) : Prop :=
  ∀ i < n.length, a.getMsbD i = n.address.getMsbD i

lemma getMsbD_netmask {l : ℕ} (hl : l ≤ w) (i : ℕ) :
    (netmask w l).getMsbD i = decide (i < l) := by
  rw [netmask, getMsbD_shiftLeft, getMsbD_allOnes, decide_eq_decide]
  omega

lemma Cidr.contains_iff (n : Cidr w) (a : BitVec w) : n.contains a ↔ n.Covers a := by
  rw [contains, decide_eq_true_eq]
  constructor
  · intro h i hi
    rw [← h, getMsbD_and, getMsbD_netmask n.length_le, decide_eq_true hi, Bool.and_true]
  · intro h
    rw [← n.address_and]
    refine eq_of_getMsbD_eq fun i _ => ?_
    rw [getMsbD_and, getMsbD_and, getMsbD_netmask n.length_le]
    by_cases hlt : i < n.length
    · rw [h i hlt]
    · rw [decide_eq_false hlt, Bool.and_false, Bool.and_false]

end QJazz.Net
