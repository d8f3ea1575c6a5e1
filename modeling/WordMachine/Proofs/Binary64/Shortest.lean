import WordMachine.Binary64.Shortest
import WordMachine.Proofs.Binary64.Nearest

/-!
# Shortest decimals round back

`shortest` looks for a decimal that rounds to a given magnitude on finer and finer grids. What it
finds does so because it was tested; what it takes from the last grid, of seventeen digits, was not.
**Seventeen digits are enough** because a step of that grid is at most one part in `10 ^ 16` of the
magnitude, and half a step is then less than one part in `2 ^ 54` (`unitsOfDecimal_nearNeighbour`).

Trailing zeros are cut off afterwards, which changes the digits and the exponent but not the
magnitude. All in all, the shortest decimal of a representable magnitude rounds to it
(`unitsOfDecimal_shortest`).
-/

set_option autoImplicit false

namespace WordMachine

/-! ## Trailing zeros -/

/-- A zero can be moved from the digits to the exponent. -/
theorem Binary64.unitsOfDecimal_shift (digits : Nat) (exponent : Int) :
    unitsOfDecimal ⟨10 * digits, exponent⟩ = unitsOfDecimal ⟨digits, exponent + 1⟩ := by
  rcases Int.lt_or_le exponent 0 with hneg | hpos
  · -- below one, numerator and denominator lose a factor
    obtain ⟨n, rfl⟩ : ∃ n : Nat, exponent = -(n + 1 : Nat) := ⟨exponent.natAbs - 1, by omega⟩
    have hnum : scaledNum 10 (10 * digits) (-(n + 1 : Nat))
        = 10 * scaledNum 10 digits (-(n + 1 : Nat) + 1) := by
      rw [scaledNum, scaledNum, Nat.mul_assoc, Nat.mul_assoc, Nat.mul_assoc]
      congr 4
      omega
    have hden : scaledDen 10 (-(n + 1 : Nat)) = 10 * scaledDen 10 (-(n + 1 : Nat) + 1) := by
      rw [scaledDen, scaledDen, show (-(-(n + 1 : Nat) : Int)).toNat = n + 1 by omega,
        show (-(-(n + 1 : Nat) + 1 : Int)).toNat = n by omega, power_succ, Nat.mul_comm]
    rw [unitsOfDecimal, unitsOfDecimal, hnum, hden, roundUnits_mul_left (by decide)]
  · have hnum : scaledNum 10 (10 * digits) exponent = scaledNum 10 digits (exponent + 1) := by
      rw [scaledNum, scaledNum, show (exponent + 1).toNat = exponent.toNat + 1 by omega, power_succ]
      generalize unitsPerOne = unit
      ac_rfl
    have hden : scaledDen 10 exponent = scaledDen 10 (exponent + 1) := by
      rw [scaledDen, scaledDen, show (-exponent).toNat = (-(exponent + 1)).toNat by omega]
    rw [unitsOfDecimal, unitsOfDecimal, hnum, hden]

theorem Decimal.unitsOfDecimal_trim (d : Decimal) :
    Binary64.unitsOfDecimal d.trim = Binary64.unitsOfDecimal d := by
  fun_induction trim d with
  | case1 d h ih =>
    rw [ih, ← Binary64.unitsOfDecimal_shift, Nat.mul_div_cancel' (Nat.dvd_of_mod_eq_zero h.2)]
  | case2 d h => rfl

theorem Decimal.exponent_le_trim (d : Decimal) : d.exponent ≤ d.trim.exponent := by
  fun_induction trim d with
  | case1 d h ih => exact Int.le_trans (Int.le_add_one (Int.le_refl _)) ih
  | case2 d h => exact Int.le_refl _

namespace Binary64

/-! ## Seventeen digits -/

/-- The decimal exponent counts the digits of `u` in steps of `10 ^ -324`, the finest there are. -/
theorem decimalExponent_spec {u : Nat} (h : 0 < u) :
    ∃ count : Nat, 0 < count ∧ decimalExponent u = (count : Int) - 324 ∧
      power 10 (count - 1) * unitsPerOne ≤ u * power 10 324 ∧
      u * power 10 324 < power 10 count * unitsPerOne := by
  have hunits : 0 < unitsPerOne := power_two_pos 1074
  have hstep : unitsPerOne ≤ u * power 10 324 :=
    Nat.le_trans (show unitsPerOne ≤ power 10 324 by decide +kernel) (Nat.le_mul_of_pos_left _ h)
  have hpos : 0 < u * power 10 324 / unitsPerOne := Nat.div_pos hstep hunits
  obtain ⟨hlow, hhigh⟩ := digitCount_spec hpos
  exact ⟨_, digitCount_pos _, rfl, (Nat.le_div_iff_mul_le hunits).mp hlow,
    (Nat.div_lt_iff_lt_mul hunits).mp hhigh⟩

@[simp] theorem exponent_nearNeighbour (u : Nat) (exponent : Int) :
    (nearNeighbour u exponent).exponent = exponent := by
  rw [nearNeighbour]

@[simp] theorem digits_nearNeighbour (u : Nat) (exponent : Int) :
    (nearNeighbour u exponent).digits = roundDiv (gridNum u exponent) (gridDen exponent) := by
  rw [nearNeighbour]

theorem gridDen_pos (exponent : Int) : 0 < gridDen exponent :=
  Nat.mul_pos (power_two_pos 1074) (power_pos (by decide) _)

theorem scaledNum_eq (digits : Nat) (exponent : Int) :
    scaledNum 10 digits exponent = digits * gridDen exponent := Nat.mul_assoc _ _ _

theorem gridNum_eq (u : Nat) (exponent : Int) :
    gridNum u exponent = u * scaledDen 10 exponent := rfl

/-- On the grid of seventeen digits there are at least `10 ^ 16` steps up to `u`. -/
theorem grid_fine {u : Nat} (h : 0 < u) :
    power 10 16 * gridDen (decimalExponent u - 17) ≤ gridNum u (decimalExponent u - 17) := by
  obtain ⟨count, hcount, hexponent, hle, -⟩ := decimalExponent_spec h
  rw [hexponent, gridDen, gridNum]
  generalize hp : ((count : Int) - 324 - 17).toNat = p
  generalize hn : (-((count : Int) - 324 - 17)).toNat = n
  have hbalance : 324 + 16 + p = count - 1 + n := by omega
  refine Nat.le_of_mul_le_mul_left ?_ (power_pos (by decide) 324 : 0 < power 10 324)
  calc power 10 324 * (power 10 16 * (unitsPerOne * power 10 p))
      = power 10 (324 + 16 + p) * unitsPerOne := by
        rw [power_add, power_add, Nat.mul_comm unitsPerOne, Nat.mul_assoc, Nat.mul_assoc]
    _ = power 10 (count - 1) * unitsPerOne * power 10 n := by
        rw [hbalance, power_add, Nat.mul_right_comm]
    _ ≤ u * power 10 324 * power 10 n := Nat.mul_le_mul_right _ hle
    _ = power 10 324 * (u * power 10 n) := by rw [Nat.mul_comm u, Nat.mul_assoc]

/-- The nearer neighbour on a grid of that many steps rounds to `u`. -/
theorem unitsOfDecimal_nearNeighbour {u : Nat} (hu : Representable u) {exponent : Int}
    (hfine : power 10 16 * gridDen exponent ≤ gridNum u exponent) :
    unitsOfDecimal (nearNeighbour u exponent) = u := by
  have hgrid := gridDen_pos exponent
  have hround := roundDiv_near (gridNum u exponent) hgrid
  have hsteps : power 10 16 = 10000000000000000 := rfl
  rw [hsteps] at hfine
  rw [unitsOfDecimal, exponent_nearNeighbour, digits_nearNeighbour, scaledNum_eq]
  -- a half step is less than one part in `2 ^ 54`
  refine roundUnits_eq_of_near hu ⟨?_, ?_⟩ <;> rw [← gridNum_eq] <;> omega

/-! ## The search -/

theorem exponent_of_neighbourFor? {u : Nat} {exponent : Int} {d : Decimal}
    (h : neighbourFor? u exponent = some d) : d.exponent = exponent := by
  have hmem := List.mem_of_find?_eq_some h
  rcases List.mem_cons.mp hmem with rfl | hmem
  · rfl
  · rw [List.mem_singleton.mp hmem]
    rfl

theorem spec_of_hit? {u : Nat} {whole : Int} {d : Decimal} (h : hit? u whole = some d) :
    unitsOfDecimal d = u ∧ whole - 16 ≤ d.exponent := by
  obtain ⟨count, hmem, hcount⟩ := List.exists_of_findSome?_eq_some h
  have hexponent := exponent_of_neighbourFor? hcount
  have hle := List.mem_range'_1.mp hmem
  exact ⟨unitsOfDecimal_of_neighbourFor? hcount, by omega⟩

/-- Before trailing zeros are cut off, the shortest decimal is a neighbour on one of the grids. -/
theorem shortest_cases {u : Nat} (hpos : 0 < u) (hu : Representable u) :
    ∃ d : Decimal, shortest u = d.trim ∧ unitsOfDecimal d = u ∧
      decimalExponent u - 17 ≤ d.exponent := by
  refine ⟨_, rfl, ?_⟩
  cases hhit : hit? u (decimalExponent u) with
  | some d =>
    obtain ⟨hunits, hexponent⟩ := spec_of_hit? hhit
    exact ⟨hunits, by rw [Option.getD_some]; omega⟩
  | none =>
    have hexponent := exponent_nearNeighbour u (decimalExponent u - 17)
    exact ⟨unitsOfDecimal_nearNeighbour hu (grid_fine hpos), Int.le_of_eq hexponent.symm⟩

/-- **The shortest decimal rounds back.** -/
theorem unitsOfDecimal_shortest {u : Nat} (hpos : 0 < u) (hu : Representable u) :
    unitsOfDecimal (shortest u) = u := by
  obtain ⟨d, hshortest, hunits, -⟩ := shortest_cases hpos hu
  rw [hshortest, d.unitsOfDecimal_trim, hunits]

theorem le_exponent_shortest {u : Nat} (hpos : 0 < u) (hu : Representable u) :
    -340 ≤ (shortest u).exponent := by
  obtain ⟨d, hshortest, -, hexponent⟩ := shortest_cases hpos hu
  obtain ⟨count, hcount, hwhole, -⟩ := decimalExponent_spec hpos
  have := d.exponent_le_trim
  rw [hshortest]
  omega

end Binary64
end WordMachine
