import Mathlib.Tactic

/-! # Memory maps

`MemoryMap` is a set of guest addresses that restricts tracing and importing to parts of the memory.

* **`MemoryMap.isMatching`** — a single byte hits the map.
* **`MemoryMap.isMatchingAccess`** — an access of several bytes hits the map: one of its bytes does
  (`isMatchingAccess_eq_true_iff`). -/

namespace FailStar

/-- `MemoryMap`: a set of addresses. -/
abbrev MemoryMap := Finset ℕ

namespace MemoryMap

/-- `isMatching(addr)`, for the default size of one byte. -/
def isMatching (mm : MemoryMap) (addr : ℕ) : Bool := decide (addr ∈ mm)

/-- `isMatching(addr, size)`: the map intersects the closed interval from `addr` to `addr + size - 1`, which
is computed in the `w` bits of `address_t`. -/
def isMatchingAccess (w : ℕ) (mm : MemoryMap) (addr size : ℕ) : Bool :=
  decide (∃ a ∈ mm, addr ≤ a ∧ a ≤ (addr + size + 2 ^ w - 1) % 2 ^ w)

/-- The addresses from `begin()` to `end()`. -/
def elements (mm : MemoryMap) : List ℕ := mm.sort (· ≤ ·)

/-- An access that does not reach the end of the address space hits the map iff one of its bytes does. -/
theorem isMatchingAccess_eq_true_iff {w addr size : ℕ} {mm : MemoryMap} (hsize : 0 < size)
    (hfits : addr + size ≤ 2 ^ w) :
    isMatchingAccess w mm addr size = true ↔ ∃ i < size, mm.isMatching (addr + i) = true := by
  have hlast : (addr + size + 2 ^ w - 1) % 2 ^ w = addr + size - 1 := by
    rw [show addr + size + 2 ^ w - 1 = addr + size - 1 + 2 ^ w by omega, Nat.add_mod_right,
      Nat.mod_eq_of_lt (by omega)]
  simp only [isMatchingAccess, isMatching, hlast, decide_eq_true_eq]
  constructor
  · rintro ⟨a, ha, hle, hle'⟩
    exact ⟨a - addr, by omega, by rwa [Nat.add_sub_cancel' hle]⟩
  · rintro ⟨i, hi, hmem⟩
    exact ⟨addr + i, hmem, by omega, by omega⟩

end MemoryMap

end FailStar
