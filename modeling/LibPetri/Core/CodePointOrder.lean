import Mathlib

/-! # The order of code points

Strings are lists of UTF-16 code units here.  Two of them are compared by their first units that differ, and
where both of these are above the basic plane's last gap they are moved to where their code points stand.
-/

namespace LibPetri

/-- `HIGH_UNIT.test`: some unit at which the two orders can disagree.  A unit is at most `0xffff`. -/
def hasHighUnit (units : List Nat) : Bool := units.any fun x => 0xd800 ≤ x

/-- Where a unit from `0xd800` on is moved: the ones after the surrogates down, the surrogates up. -/
def fixUp (x : Nat) : Int := if 0xe000 ≤ x then (x : Int) - 0x800 else (x : Int) + 0x2000

/-- The loop over both strings; once one of them ends, the lengths decide. -/
def compareUnits : List Nat → List Nat → Int
  | x :: a, y :: b =>
    if x ≠ y then
      if 0xd800 ≤ x ∧ 0xd800 ≤ y then fixUp x - fixUp y else (x : Int) - y
    else compareUnits a b
  | a, b => (a.length : Int) - b.length

/-- The comparison of the language, unit by unit. -/
def compareNative (a b : List Nat) : Int := if a < b then -1 else if b < a then 1 else 0

/-- Negative when `a` sorts first, zero when equal, positive otherwise. -/
def compareCodePoints (a b : List Nat) : Int :=
  if !hasHighUnit a || !hasHighUnit b then compareNative a b else compareUnits a b

end LibPetri
