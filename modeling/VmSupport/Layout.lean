namespace VmSupport

structure Layout where
  size : Nat
  align : Nat
  deriving DecidableEq, Inhabited

namespace Layout

def IsValid (l : Layout) : Prop := l.align.isPowerOfTwo ∧ l.size + l.align ≤ 1 <<< 63

instance (l : Layout) : Decidable l.IsValid := by
  unfold IsValid
  infer_instance

def ofWords (size : Nat) : Layout := ⟨size, 8⟩

end Layout

def alignUp (align n : Nat) : Nat := (n + (align - 1)) / align * align

theorem dvd_alignUp (align n : Nat) : align ∣ alignUp align n := Nat.dvd_mul_left _ _

theorem le_alignUp {align : Nat} (h : 0 < align) (n : Nat) : n ≤ alignUp align n := by
  have hdiv := Nat.div_add_mod' (n + (align - 1)) align
  have hmod := Nat.mod_lt (n + (align - 1)) h
  unfold alignUp
  omega

theorem alignUp_lt {align : Nat} (h : 0 < align) (n : Nat) : alignUp align n < n + align := by
  have hdiv := Nat.div_add_mod' (n + (align - 1)) align
  unfold alignUp
  omega

theorem alignUp_of_dvd {align n : Nat} (h : 0 < align) (hn : align ∣ n) : alignUp align n = n := by
  obtain ⟨k, rfl⟩ := hn
  have hle := le_alignUp h (align * k)
  have hlt := alignUp_lt h (align * k)
  obtain ⟨j, hj⟩ := dvd_alignUp align (align * k)
  rw [hj] at hle hlt ⊢
  have hjk : j < k + 1 := Nat.lt_of_mul_lt_mul_left (a := align) (by rw [Nat.mul_succ]; exact hlt)
  have hkj : k ≤ j := Nat.le_of_mul_le_mul_left hle h
  rw [Nat.le_antisymm (Nat.le_of_lt_succ hjk) hkj]

end VmSupport
