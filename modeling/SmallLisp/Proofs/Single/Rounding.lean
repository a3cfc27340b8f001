import SmallLisp.Single.Shortest

/-! Rounding to a magnitude depends on the ratio alone, and gives every
magnitude back that is one already. A decimal denotes the magnitude nearest to
it even where its power is never computed, so the same decimal with another
exponent denotes the same magnitude, and the decimal that is printed for a
magnitude denotes that magnitude. -/

namespace SmallLisp.Single

/-! ### Rounding a ratio -/

theorem roundDiv_mul_right (num den : Nat) {k : Nat} (hk : 0 < k) :
    roundDiv (num * k) (den * k) = roundDiv num den := by
  have hlt : 2 * (num % den * k) < den * k ↔ 2 * (num % den) < den := by
    rw [← Nat.mul_assoc, Nat.mul_lt_mul_right hk]
  have heq : 2 * (num % den * k) = den * k ↔ 2 * (num % den) = den := by
    rw [← Nat.mul_assoc, Nat.mul_right_cancel_iff hk]
  simp only [roundDiv, Nat.mul_div_mul_right _ _ hk, Nat.mul_mod_mul_right, hlt, heq]

theorem roundDiv_mul_self (n : Nat) {den : Nat} (hd : 0 < den) : roundDiv (n * den) den = n := by
  simp [roundDiv, Nat.mul_div_cancel _ hd, hd]

theorem div_le_roundDiv (num den : Nat) : num / den ≤ roundDiv num den := by
  unfold roundDiv
  dsimp only
  split <;> omega

theorem roundDiv_eq_zero {num den : Nat} (h : 2 * num < den) : roundDiv num den = 0 := by
  have hd : num / den = 0 := Nat.div_eq_of_lt (by omega)
  have hm : num % den = num := Nat.mod_eq_of_lt (by omega)
  simp [roundDiv, hd, hm, h]

/-- The nearest magnitude depends on the ratio alone. -/
theorem nearest_mul_right (num den : Nat) {k : Nat} (hk : 0 < k) :
    nearest (num * k) (den * k) = nearest num den := by
  have hr (d : Nat) : roundDiv (num * k) ((den * k) <<< d) = roundDiv num (den <<< d) := by
    rw [Nat.shiftLeft_eq, Nat.shiftLeft_eq, Nat.mul_right_comm, roundDiv_mul_right _ _ hk]
  simp only [nearest, Nat.mul_div_mul_right _ _ hk, hr]

theorem nearest_eq_zero {num den : Nat} (h : 2 * num < den) : nearest num den = .zero := by
  have hd : num / den = 0 := Nat.div_eq_of_lt (by omega)
  ext
  simp [nearest, hd, roundDiv_eq_zero h, Code.zero]

/-- Ratios out of range become infinite. -/
theorem nearest_eq_infinite {num den : Nat} (h : one <<< 128 ≤ num / den) :
    nearest num den = Fin.last infiniteCode := by
  rw [one, ← Nat.shiftLeft_add, Nat.one_shiftLeft] at h
  have hne : num / den ≠ 0 := Nat.ne_of_gt (Nat.lt_of_lt_of_le (Nat.two_pow_pos _) h)
  obtain ⟨k, hk⟩ := Nat.exists_eq_add_of_le ((Nat.le_log2 hne).2 h)
  have hd : (num / den).log2 - 23 = k + 254 := by omega
  have hself := Nat.log2_self_le hne
  rw [show (num / den).log2 = 23 + (k + 254) by omega, Nat.pow_add] at hself
  have hq : 0x800000 ≤ num / den <<< (k + 254) := by
    rw [Nat.shiftLeft_eq, ← Nat.div_div_eq_div_mul]
    exact (Nat.le_div_iff_mul_le (Nat.two_pow_pos _)).2 hself
  have hr := Nat.le_trans hq (div_le_roundDiv num (den <<< (k + 254)))
  ext
  simp only [nearest, hd, Fin.val_last]
  simp only [infiniteCode]
  omega

/-! ### Magnitudes -/

theorem units_of_lt {code : Nat} (h : code < 0x1000000) : units code = code := by
  have hd : code / 0x800000 - 1 = 0 := by omega
  rw [units, hd, Nat.zero_mul, Nat.sub_zero, Nat.shiftLeft_zero]

/-- A normal magnitude has 24 binary digits, which are doubled some times. -/
theorem units_of_le {code : Nat} (h : 0x1000000 ≤ code) :
    ∃ m d, 0x800000 ≤ m ∧ m < 0x1000000 ∧ code = m + d * 0x800000 ∧ units code = m <<< d :=
  ⟨code - (code / 0x800000 - 1) * 0x800000, code / 0x800000 - 1, by omega, by omega, by omega, rfl⟩

/-- A magnitude is the nearest one to itself. -/
theorem nearest_units (code : Code) : nearest (units code.val) 1 = code := by
  obtain ⟨code, hc⟩ := code
  ext
  have hmin : min code infiniteCode = code := by omega
  by_cases h : code < 0x1000000
  · have hl : code.log2 - 23 = 0 := by
      by_cases h0 : code = 0
      · rw [h0, Nat.log2_zero]
      · have := (Nat.log2_lt (k := 24) h0).2 h
        omega
    have hr : roundDiv (code * 1) 1 = code := roundDiv_mul_self code (by omega)
    rw [Nat.mul_one] at hr
    simp only [nearest, units_of_lt h, Nat.div_one, hl, Nat.shiftLeft_zero, Nat.zero_mul,
      Nat.add_zero, hr, hmin]
  · obtain ⟨m, d, hm, hm', he, hu⟩ := units_of_le (Nat.le_of_not_lt h)
    rw [Nat.shiftLeft_eq] at hu
    have hpos : 0 < 2 ^ d := Nat.two_pow_pos d
    have hne : m * 2 ^ d ≠ 0 := Nat.mul_ne_zero (by omega) (by omega)
    have hl : (m * 2 ^ d).log2 = 23 + d := by
      refine (Nat.log2_eq_iff hne).2 ⟨?_, ?_⟩
      · rw [Nat.pow_add]
        exact Nat.mul_le_mul_right _ hm
      · rw [show 23 + d + 1 = 24 + d by omega, Nat.pow_add]
        exact Nat.mul_lt_mul_of_pos_right hm' hpos
    have hr : roundDiv (m * 2 ^ d) (2 ^ d) = m := roundDiv_mul_self m hpos
    simp only [nearest, hu, Nat.div_one, hl, Nat.add_sub_cancel_left, Nat.one_shiftLeft, hr, ← he,
      hmin]

/-! ### Decimals -/

theorem one_pos : 0 < one := by decide

/-- Also where the power of ten is never computed, a decimal denotes the
magnitude nearest to it. -/
theorem ofDecimal_eq_nearest (c : Nat) {e : Int} {a b : Nat} (h : e = a - b) :
    ofDecimal c e = nearest (c * Nat.pow 10 a * one) (Nat.pow 10 b) := by
  have hten (n : Nat) : 0 < 10 ^ n := Nat.pow_pos (by omega)
  simp only [ofDecimal, Nat.pow_eq]
  split
  · next hc => rw [hc, nearest_eq_zero (by simp [hten])]
  split
  · next hc he =>
    obtain ⟨j, rfl⟩ : ∃ j, a = 39 + j + b := ⟨a - b - 39, by omega⟩
    have hlarge : 2 ^ 128 ≤ 10 ^ (39 + j) :=
      Nat.le_trans (show 2 ^ 128 ≤ 10 ^ 39 by decide) (Nat.pow_le_pow_right (by omega) (by omega))
    refine (nearest_eq_infinite ?_).symm
    rw [Nat.shiftLeft_eq, Nat.mul_comm, Nat.pow_add, ← Nat.mul_assoc,
      Nat.mul_right_comm _ (10 ^ b), Nat.mul_div_cancel _ (hten b)]
    refine Nat.mul_le_mul_right _ (Nat.le_trans hlarge ?_)
    exact Nat.le_mul_of_pos_left _ (Nat.pos_of_ne_zero hc)
  split
  · next hc he hz =>
    have hc : c < 10 ^ (Nat.toDigits 10 c).length :=
      (Nat.length_toDigits_le_iff (by omega) Nat.length_toDigits_pos).1 (Nat.le_refl _)
    generalize (Nat.toDigits 10 c).length = n at hc hz
    have hone : 2 * one ≤ 10 ^ 46 := by decide
    refine (nearest_eq_zero ?_).symm
    calc 2 * (c * 10 ^ a * one) = c * (10 ^ a * (2 * one)) := by
          rw [Nat.mul_assoc, Nat.mul_left_comm, Nat.mul_left_comm 2]
      _ < 10 ^ n * (10 ^ a * (2 * one)) :=
        Nat.mul_lt_mul_of_pos_right hc (Nat.mul_pos (hten a) (Nat.mul_pos (by omega) one_pos))
      _ ≤ 10 ^ n * (10 ^ a * 10 ^ 46) :=
        Nat.mul_le_mul_left _ (Nat.mul_le_mul_left _ hone)
      _ = 10 ^ (n + (a + 46)) := by rw [Nat.pow_add, Nat.pow_add]
      _ ≤ 10 ^ b := Nat.pow_le_pow_right (by omega) (by omega)
  · cases e with
    | ofNat k =>
      obtain rfl : a = k + b := by simp only [Int.ofNat_eq_natCast] at h; omega
      have hr := nearest_mul_right (c * 10 ^ k * one) 1 (hten b)
      rw [Nat.one_mul] at hr
      rw [Nat.pow_add, ← Nat.mul_assoc, Nat.mul_right_comm _ (10 ^ b), hr]
    | negSucc k =>
      obtain rfl : b = k + 1 + a := by omega
      rw [Nat.pow_add, Nat.mul_right_comm, nearest_mul_right _ _ (hten a)]

/-- Zeros at the end of a coefficient count as powers of ten. -/
theorem ofDecimal_mul_pow (c k : Nat) (e : Int) :
    ofDecimal (c * Nat.pow 10 k) e = ofDecimal c (e + k) := by
  obtain ⟨a, b, h⟩ : ∃ a b : Nat, e = a - b := ⟨e.toNat, (-e).toNat, by omega⟩
  have hk : e + k = (a + k : Nat) - b := by omega
  rw [ofDecimal_eq_nearest _ h, ofDecimal_eq_nearest c hk]
  simp only [Nat.pow_eq]
  rw [Nat.mul_assoc c, ← Nat.pow_add, Nat.add_comm k]

/-- The exact value of a magnitude, written as a decimal, denotes it. -/
theorem ofDecimal_exactDecimal (code : Code) :
    ofDecimal (exactDecimal code).coefficient (exactDecimal code).exponent = code := by
  have hn (n : Nat) :
      nearest (units code.val * Nat.pow 5 n * Nat.pow 10 0 * (1 <<< n)) (Nat.pow 10 n) = code := by
    have hr := nearest_mul_right (units code.val) 1 (Nat.pow_pos (n := n) (show 0 < 10 by omega))
    rw [Nat.one_mul, nearest_units, show 10 = 5 * 2 from rfl, Nat.mul_pow, ← Nat.mul_assoc,
      ← Nat.mul_pow] at hr
    simpa only [Nat.pow_eq, Nat.pow_zero, Nat.mul_one, Nat.one_shiftLeft] using hr
  unfold exactDecimal
  rw [ofDecimal_eq_nearest _ (show (-149 : Int) = (0 : Nat) - (149 : Nat) by omega)]
  exact hn 149

theorem ofDecimal_of_readsBackOn {code : Code} {e : Int} {d : Decimal}
    (h : readsBackOn code e = some d) : ofDecimal d.coefficient d.exponent = code := by
  simp only [readsBackOn, Option.map_eq_some_iff] at h
  obtain ⟨c, hc, rfl⟩ := h
  have h := List.find?_some hc
  exact of_decide_eq_true h

/-- The decimal that is printed for a magnitude denotes it. -/
theorem ofDecimal_shortest (code : Code) :
    ofDecimal (shortest code).coefficient (shortest code).exponent = code := by
  unfold shortest
  cases hs : (List.range' 1 9).findSome? (readsBackWith code) with
  | none =>
    rw [Option.getD_none]
    exact ofDecimal_exactDecimal code
  | some d =>
    obtain ⟨count, -, hd⟩ := List.exists_of_findSome?_eq_some hs
    rw [Option.getD_some]
    exact ofDecimal_of_readsBackOn hd

end SmallLisp.Single
