namespace VmSupport

def pageSize : Nat := 4096

inductive SettingsError
  | zeroSize
  | blockAlignment
  | heapNotBlockMultiple
  | largeSizeTooBig
  deriving DecidableEq

def SettingsError.message : SettingsError → String
  | zeroSize => "sizes must be > 0"
  | blockAlignment => s!"block_size must be a multiple of the OS page size ({pageSize})"
  | heapNotBlockMultiple => "heap_size must be a multiple of block_size"
  | largeSizeTooBig => "large_size must be smaller or equal to block_size"

structure HeapSettings where
  heapSize : Nat := 67108864
  blockSize : Nat := 32768
  largeSize : Nat := 8176
  deriving DecidableEq, Inhabited

namespace HeapSettings

def fault? (s : HeapSettings) : Option SettingsError :=
  if s.heapSize = 0 ∨ s.blockSize = 0 ∨ s.largeSize = 0 then some .zeroSize
  else if s.blockSize % pageSize ≠ 0 then some .blockAlignment
  else if s.heapSize % s.blockSize ≠ 0 then some .heapNotBlockMultiple
  else if s.blockSize < s.largeSize then some .largeSizeTooBig
  else none

structure IsValid (s : HeapSettings) : Prop where
  heapSize_pos : 0 < s.heapSize
  blockSize_pos : 0 < s.blockSize
  largeSize_pos : 0 < s.largeSize
  pageSize_dvd : pageSize ∣ s.blockSize
  blockSize_dvd : s.blockSize ∣ s.heapSize
  largeSize_le : s.largeSize ≤ s.blockSize

theorem fault?_eq_none_iff (s : HeapSettings) : s.fault? = none ↔ s.IsValid := by
  constructor
  · intro h
    simp only [fault?] at h
    split at h
    · contradiction
    split at h
    · contradiction
    split at h
    · contradiction
    split at h
    · contradiction
    constructor <;> omega
  · rintro ⟨h₁, h₂, h₃, h₄, h₅, h₆⟩
    have h₄ := Nat.mod_eq_zero_of_dvd h₄
    have h₅ := Nat.mod_eq_zero_of_dvd h₅
    simp only [fault?]
    rw [if_neg (by omega), if_neg (by omega), if_neg (by omega), if_neg (by omega)]

def blockCount (s : HeapSettings) : Nat := s.heapSize / s.blockSize

def description (s : HeapSettings) : String :=
  s!"HeapSettings \x7b heap_size: {s.heapSize}, block_size: {s.blockSize}, "
    ++ s!"large_size: {s.largeSize} \x7d"

end HeapSettings

end VmSupport
