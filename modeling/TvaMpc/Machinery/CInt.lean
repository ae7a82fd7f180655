import Mathlib.Data.Int.Order.Basic

/-!
# Machinery/CInt — arithmetic in a signed type of 32 bits

A value that the type does not have is `none`, and so is a division by zero.  Division truncates.
-/

namespace Machinery

/-- A value of type `int`, if it is one. -/
def int (x : ℤ) : Option ℤ := if -2147483648 ≤ x ∧ x ≤ 2147483647 then some x else none

theorem int_eq_some_iff {x y : ℤ} :
    int x = some y ↔ (-2147483648 ≤ x ∧ x ≤ 2147483647) ∧ x = y := by
  rw [int]
  split
  · rename_i hx
    exact ⟨fun h => ⟨hx, Option.some.inj h⟩, fun h => congrArg some h.2⟩
  · rename_i hx
    exact ⟨fun h => absurd h nofun, fun h => absurd h.1 hx⟩

theorem int_self {x : ℤ} (hlo : -2147483648 ≤ x) (hhi : x ≤ 2147483647) : int x = some x :=
  int_eq_some_iff.mpr ⟨⟨hlo, hhi⟩, rfl⟩

theorem int_eq_none {x : ℤ} (h : ¬ x ≤ 2147483647) : int x = none := if_neg fun hx => h hx.2

theorem int_natCast {x : ℕ} (h : x ≤ 2147483647) : int x = some (x : ℤ) :=
  int_self (by omega) (by omega)

/-! ## Division -/

/-- `x / y`. -/
def intDiv (x y : ℤ) : Option ℤ := if y = 0 then none else int (x.tdiv y)

/-- `x % y`, which is defined if `x / y` is. -/
def intMod (x y : ℤ) : Option ℤ := (intDiv x y).map fun _ => x.tmod y

variable {x y : ℕ}

theorem intDiv_natCast (hx : x ≤ 2147483647) (hy : 0 < y) :
    intDiv x y = some ((x / y : ℕ) : ℤ) := by
  rw [intDiv, if_neg (by omega), ← Int.ofNat_tdiv]
  exact int_natCast (Nat.le_trans (Nat.div_le_self x y) hx)

theorem intMod_natCast (hx : x ≤ 2147483647) (hy : 0 < y) :
    intMod x y = some ((x % y : ℕ) : ℤ) := by
  rw [intMod, intDiv_natCast hx hy, Option.map_some, Int.ofNat_tmod]

end Machinery
