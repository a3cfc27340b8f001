import SmallLisp.Proofs.Single.Rounding

/-! The text of a finite number reads back as that number. What is printed are
the digits of a coefficient without the zeros at their end, with a point or an
exponent that makes up for the zeros; reading puts the coefficient together
again, with another power of ten. -/

namespace SmallLisp.Single

/-! ### Runs of digits -/

theorem digitsValue_eq_ofDigitChars (ds : List Char) :
    digitsValue ds = Nat.ofDigitChars 10 ds 0 := by
  rw [Nat.ofDigitChars_eq_foldl, digitsValue]

theorem digitsValue_toDigits (n : Nat) : digitsValue (Nat.toDigits 10 n) = n := by
  rw [digitsValue_eq_ofDigitChars, Nat.ofDigitChars_ten_toDigits]

theorem digitsValue_append_zeros (ds : List Char) (k : Nat) :
    digitsValue (ds ++ List.replicate k '0') = digitsValue ds * Nat.pow 10 k := by
  rw [digitsValue_eq_ofDigitChars, Nat.ofDigitChars_append, Nat.ofDigitChars_replicate_zero,
    ← digitsValue_eq_ofDigitChars, Nat.mul_comm, Nat.pow_eq]

theorem digitsValue_zeros_append (k : Nat) (ds : List Char) :
    digitsValue (List.replicate k '0' ++ ds) = digitsValue ds := by
  rw [digitsValue_eq_ofDigitChars, Nat.ofDigitChars_append, Nat.ofDigitChars_replicate_zero,
    Nat.mul_zero, ← digitsValue_eq_ofDigitChars]

theorem isDigit_of_mem_toDigits {n : Nat} {c : Char} (h : c ∈ Nat.toDigits 10 n) : c.isDigit :=
  Nat.isDigit_of_mem_toDigits (by omega) (by omega) h

theorem dropTrailingZeros_append (ds : List Char) :
    ∃ k, ds = dropTrailingZeros ds ++ List.replicate k '0' := by
  obtain ⟨k, hk⟩ : ∃ k, ds.reverse.takeWhile (· == '0') = List.replicate k '0' := by
    refine ⟨_, List.eq_replicate_iff.2 ⟨rfl, fun c hc => ?_⟩⟩
    exact eq_of_beq (List.all_eq_true.1 List.all_takeWhile c hc)
  refine ⟨k, ?_⟩
  rw [dropTrailingZeros, ← List.reverse_replicate, ← List.reverse_append, ← hk,
    List.takeWhile_append_dropWhile, List.reverse_reverse]

theorem takeWhile_isDigit_append {ds rest : List Char} (hd : ∀ c ∈ ds, c.isDigit)
    (hr : ∀ c ∈ rest.head?, c.isDigit = false) : (ds ++ rest).takeWhile Char.isDigit = ds := by
  rw [List.takeWhile_append_of_pos hd]
  cases rest with
  | nil => simp
  | cons c rest => simp [hr c rfl]

theorem dropWhile_isDigit_append {ds rest : List Char} (hd : ∀ c ∈ ds, c.isDigit)
    (hr : ∀ c ∈ rest.head?, c.isDigit = false) : (ds ++ rest).dropWhile Char.isDigit = rest := by
  rw [List.dropWhile_append_of_pos hd]
  cases rest with
  | nil => rfl
  | cons c rest => simp [hr c rfl]

/-! ### Points and exponents -/

section Reading

variable {whole fraction rest ds : List Char}

/-- Reading a decimal without a point. -/
theorem readMagnitude_whole (hw : ∀ c ∈ whole, c.isDigit) (hne : whole ≠ [])
    (hr : ∀ c ∈ rest.head?, c.isDigit = false ∧ c ≠ '.') :
    readMagnitude (whole ++ rest) =
      (readExponent rest).map fun e => ofDecimal (digitsValue whole) e := by
  have hd (c : Char) (hc : c ∈ rest.head?) : c.isDigit = false := (hr c hc).1
  have hs : splitFraction rest = ([], rest) := by
    unfold splitFraction
    split
    · exact absurd rfl (hr '.' rfl).2
    · rfl
  simp [readMagnitude, takeWhile_isDigit_append hw hd, dropWhile_isDigit_append hw hd, hs, hne]

/-- Reading a decimal with a point. -/
theorem readMagnitude_point (hw : ∀ c ∈ whole, c.isDigit) (hne : whole ≠ [])
    (hf : ∀ c ∈ fraction, c.isDigit) (hr : ∀ c ∈ rest.head?, c.isDigit = false) :
    readMagnitude (whole ++ '.' :: (fraction ++ rest)) =
      (readExponent rest).map fun e =>
        ofDecimal (digitsValue (whole ++ fraction)) (e - fraction.length) := by
  have hp : ∀ c ∈ ('.' :: (fraction ++ rest)).head?, c.isDigit = false := by simp
  simp [readMagnitude, takeWhile_isDigit_append hw hp, dropWhile_isDigit_append hw hp,
    splitFraction, takeWhile_isDigit_append hf hr, dropWhile_isDigit_append hf hr, hne]

/-- Reading a decimal with a point and no exponent. -/
theorem readMagnitude_fraction (hw : ∀ c ∈ whole, c.isDigit) (hne : whole ≠ [])
    (hf : ∀ c ∈ fraction, c.isDigit) :
    readMagnitude (whole ++ '.' :: fraction) =
      some (ofDecimal (digitsValue (whole ++ fraction)) (-fraction.length)) := by
  have hnil : ∀ c ∈ ([] : List Char).head?, c.isDigit = false := by simp
  have h := readMagnitude_point hw hne hf hnil
  rw [List.append_nil] at h
  rw [h, readExponent, Option.map_some, Int.zero_sub]

theorem readExponentDigits_repr (i : Int) : readExponentDigits i.repr.toList = some i := by
  have hall (n : Nat) : (Nat.toDigits 10 n).all Char.isDigit :=
    List.all_eq_true.2 fun _ hc => isDigit_of_mem_toDigits hc
  have hsign (n : Nat) : splitSign (Nat.toDigits 10 n) = (false, Nat.toDigits 10 n) := by
    unfold splitSign
    split
    · next h => exact absurd (isDigit_of_mem_toDigits (n := n) (h ▸ List.mem_cons_self)) (by decide)
    · next h => exact absurd (isDigit_of_mem_toDigits (n := n) (h ▸ List.mem_cons_self)) (by decide)
    · rfl
  have hne (n : Nat) : Nat.toDigits 10 n ≠ [] := Nat.toDigits_ne_nil
  rw [Int.repr_eq_if]
  split
  · next h =>
    obtain ⟨n, rfl⟩ := Int.eq_ofNat_of_zero_le h
    simp [readExponentDigits, hsign, hall, hne, digitsValue_toDigits]
  · next h =>
    obtain ⟨n, hn⟩ := Int.eq_ofNat_of_zero_le (show 0 ≤ -i by omega)
    rw [String.toList_append, Nat.toList_repr, show "-".toList = ['-'] from rfl,
      List.singleton_append, hn, Int.toNat_natCast]
    simp [readExponentDigits, splitSign, hall, hne, digitsValue_toDigits, ← hn]

/-- Digits written with a point mean those digits, scaled by the point's place. -/
theorem readMagnitude_positional (hd : ∀ c ∈ ds, c.isDigit) (hne : ds ≠ []) (point : Int) :
    readMagnitude (positional ds point) =
      some (ofDecimal (digitsValue ds) (point - ds.length)) := by
  have hzeros (k : Nat) : ∀ c ∈ List.replicate k '0', c.isDigit := by
    intro c hc
    rw [List.eq_of_mem_replicate hc]
    rfl
  unfold positional
  split
  · next hp =>
    have hf : ∀ c ∈ List.replicate (-point).toNat '0' ++ ds, c.isDigit := fun c hc =>
      (List.mem_append.1 hc).elim (hzeros _ c) (hd c)
    have h := readMagnitude_fraction (hzeros 1) (by simp) hf
    rw [digitsValue_zeros_append, digitsValue_zeros_append, List.length_append,
      List.length_replicate] at h
    refine h.trans (congrArg (fun e => some (ofDecimal _ e)) ?_)
    omega
  · next hp =>
    obtain ⟨n, rfl⟩ := Int.eq_ofNat_of_zero_le (show 0 ≤ point by omega)
    rw [Int.toNat_natCast]
    by_cases hn : ds.length ≤ n
    · have hw : ∀ c ∈ ds ++ List.replicate (n - ds.length) '0', c.isDigit := fun c hc =>
        (List.mem_append.1 hc).elim (hd c) (hzeros _ c)
      have h := readMagnitude_fraction hw (by simp [hne]) (hzeros 1)
      rw [List.append_assoc ds _ (List.replicate 1 _), List.replicate_append_replicate,
        digitsValue_append_zeros, List.length_replicate, ofDecimal_mul_pow] at h
      simp only [List.take_of_length_le hn, if_pos hn]
      refine h.trans (congrArg (fun e => some (ofDecimal _ e)) ?_)
      omega
    · have hz : n - ds.length = 0 := by omega
      have hw : ∀ c ∈ ds.take n, c.isDigit := fun c hc => hd c (List.mem_of_mem_take hc)
      have hf : ∀ c ∈ ds.drop n, c.isDigit := fun c hc => hd c (List.mem_of_mem_drop hc)
      have hn0 : n ≠ 0 := by omega
      have h := readMagnitude_fraction hw (by simp [hne, hn0]) hf
      rw [List.take_append_drop, List.length_drop] at h
      simp only [hz, List.replicate_zero, List.append_nil, if_neg hn]
      refine h.trans (congrArg (fun e => some (ofDecimal _ e)) ?_)
      omega

/-- Digits written with an exponent mean those digits, the point after the first. -/
theorem readMagnitude_scientific (hd : ∀ c ∈ ds, c.isDigit) (hne : ds ≠ []) (point : Int) :
    readMagnitude (scientific ds point) =
      some (ofDecimal (digitsValue ds) (point - ds.length)) := by
  obtain ⟨d, tail, rfl⟩ := List.exists_cons_of_ne_nil hne
  have he : readExponent ('e' :: (toString (point - 1)).toList) = some (point - 1) := by
    simp [readExponent, readExponentDigits_repr]
  have hw : ∀ c ∈ [d], c.isDigit := by simpa using hd d
  unfold scientific
  simp only [List.drop_one, List.tail_cons, List.take_succ_cons, List.take_zero]
  split
  · next ht =>
    subst ht
    rw [List.append_nil, readMagnitude_whole hw (by simp) (by simp), he]
    rfl
  · next ht =>
    have hf : ∀ c ∈ tail, c.isDigit := fun c hc => hd c (List.mem_cons_of_mem d hc)
    have hr : ∀ c ∈ ('e' :: (toString (point - 1)).toList).head?, c.isDigit = false := by simp
    have h := readMagnitude_point hw (by simp) hf hr
    rw [he, List.singleton_append, Option.map_some] at h
    simp only [List.cons_append, List.nil_append]
    refine h.trans (congrArg (fun e => some (ofDecimal _ e)) ?_)
    rw [List.length_cons]
    omega

/-! ### Printed numbers -/

theorem ofDecimal_zero (e : Int) : ofDecimal 0 e = .zero := by simp [ofDecimal]

theorem dropTrailingZeros_toDigits_ne_nil {n : Nat} (h : n ≠ 0) :
    dropTrailingZeros (Nat.toDigits 10 n) ≠ [] := by
  intro hn
  obtain ⟨k, hk⟩ := dropTrailingZeros_append (Nat.toDigits 10 n)
  have hv := digitsValue_toDigits n
  rw [hk, digitsValue_append_zeros, hn] at hv
  exact h (hv.symm.trans (Nat.zero_mul _))

theorem isDigit_of_mem_dropTrailingZeros {n : Nat} {c : Char}
    (h : c ∈ dropTrailingZeros (Nat.toDigits 10 n)) : c.isDigit := by
  obtain ⟨k, hk⟩ := dropTrailingZeros_append (Nat.toDigits 10 n)
  have hm : c ∈ Nat.toDigits 10 n := by
    rw [hk]
    exact List.mem_append_left _ h
  exact isDigit_of_mem_toDigits hm

/-- The text of a decimal denotes what the decimal denotes. -/
theorem readMagnitude_decimal (d : Decimal) (h : d.coefficient ≠ 0) :
    readMagnitude d.chars = some (ofDecimal d.coefficient d.exponent) := by
  have hd (c : Char) := isDigit_of_mem_dropTrailingZeros (n := d.coefficient) (c := c)
  have hne := dropTrailingZeros_toDigits_ne_nil h
  obtain ⟨k, hk⟩ := dropTrailingZeros_append (Nat.toDigits 10 d.coefficient)
  have hv := digitsValue_toDigits d.coefficient
  have hlen := congrArg List.length hk
  rw [hk, digitsValue_append_zeros] at hv
  rw [List.length_append, List.length_replicate] at hlen
  unfold Decimal.chars
  dsimp only
  generalize dropTrailingZeros (Nat.toDigits 10 d.coefficient) = ds at hd hne hv hlen ⊢
  generalize (Nat.toDigits 10 d.coefficient).length = len at hlen ⊢
  have hof : ofDecimal (digitsValue ds) (len + d.exponent - ds.length) =
      ofDecimal d.coefficient d.exponent := by
    rw [← hv, ofDecimal_mul_pow]
    refine congrArg _ ?_
    omega
  split
  · rw [readMagnitude_positional hd hne, hof]
  · rw [readMagnitude_scientific hd hne, hof]

theorem coefficient_shortest_ne_zero {code : Code} (h : code.val ≠ 0) :
    (shortest code).coefficient ≠ 0 := by
  intro h0
  have hof := ofDecimal_shortest code
  rw [h0, ofDecimal_zero] at hof
  exact h (hof ▸ rfl)

theorem readMagnitude_magnitudeChars {code : Code} (h : code.val < infiniteCode) :
    readMagnitude (magnitudeChars code) = some code := by
  unfold magnitudeChars
  rw [if_neg (Nat.ne_of_lt h)]
  split
  · next hz =>
    have hdigit : ∀ c ∈ ['0'], c.isDigit := by simp
    have hr := readMagnitude_fraction hdigit (by simp) hdigit
    have hcode : code = .zero := Fin.ext hz
    rw [hcode]
    exact hr
  · next hz =>
    rw [readMagnitude_decimal _ (coefficient_shortest_ne_zero hz), ofDecimal_shortest]

end Reading

/-! ### The characters of a number -/

/-- The characters that stand in the text of a finite number. -/
def IsNumeral (c : Char) : Prop := c.isDigit ∨ c = '.' ∨ c = '-' ∨ c = 'e'

theorem isNumeral_of_mem_positional {ds : List Char} (hd : ∀ c ∈ ds, c.isDigit) {point : Int} :
    ∀ c ∈ positional ds point, IsNumeral c := by
  have hz (k : Nat) : ∀ c ∈ List.replicate k '0', c.isDigit := by simp
  intro c hc
  unfold positional at hc
  split at hc
  · simp only [List.mem_cons, List.mem_append] at hc
    rcases hc with rfl | rfl | hc | hc
    · exact .inl (by decide)
    · exact .inr (.inl rfl)
    · exact .inl (hz _ c hc)
    · exact .inl (hd c hc)
  · simp only [List.mem_cons, List.mem_append] at hc
    rcases hc with (hc | hc) | rfl | hc
    · exact .inl (hd c (List.mem_of_mem_take hc))
    · exact .inl (hz _ c hc)
    · exact .inr (.inl rfl)
    · split at hc
      · exact .inl (hz 1 c hc)
      · exact .inl (hd c (List.mem_of_mem_drop hc))

theorem isNumeral_of_mem_repr {i : Int} : ∀ c ∈ i.repr.toList, IsNumeral c := by
  intro c hc
  rw [Int.repr_eq_if] at hc
  split at hc
  · rw [Nat.toList_repr] at hc
    exact .inl (isDigit_of_mem_toDigits hc)
  · rw [String.toList_append, Nat.toList_repr, List.mem_append] at hc
    rcases hc with hc | hc
    · exact .inr (.inr (.inl (List.mem_singleton.1 hc)))
    · exact .inl (isDigit_of_mem_toDigits hc)

theorem isNumeral_of_mem_scientific {ds : List Char} (hd : ∀ c ∈ ds, c.isDigit) {point : Int} :
    ∀ c ∈ scientific ds point, IsNumeral c := by
  intro c hc
  simp only [scientific, List.mem_append, List.mem_cons] at hc
  rcases hc with (hc | hc) | rfl | hc
  · exact .inl (hd c (List.mem_of_mem_take hc))
  · split at hc
    · exact absurd hc List.not_mem_nil
    · rcases List.mem_cons.1 hc with rfl | hc
      · exact .inr (.inl rfl)
      · exact .inl (hd c (List.mem_of_mem_drop hc))
  · exact .inr (.inr (.inr rfl))
  · exact isNumeral_of_mem_repr c hc

theorem isNumeral_of_mem_magnitudeChars {code : Code} (h : code.val < infiniteCode) :
    ∀ c ∈ magnitudeChars code, IsNumeral c := by
  intro c hc
  rw [magnitudeChars, if_neg (Nat.ne_of_lt h)] at hc
  split at hc
  · simp only [List.mem_cons, List.not_mem_nil, or_false] at hc
    rcases hc with rfl | rfl | rfl
    · exact .inl (by decide)
    · exact .inr (.inl rfl)
    · exact .inl (by decide)
  · have hd (c : Char) :=
      isDigit_of_mem_dropTrailingZeros (n := (shortest code).coefficient) (c := c)
    unfold Decimal.chars at hc
    dsimp only at hc
    split at hc
    · exact isNumeral_of_mem_positional hd c hc
    · exact isNumeral_of_mem_scientific hd c hc

theorem head_positional {ds : List Char} (hd : ∀ c ∈ ds, c.isDigit) (hne : ds ≠ [])
    (point : Int) : ∃ c cs, positional ds point = c :: cs ∧ c.isDigit := by
  obtain ⟨d, tail, rfl⟩ := List.exists_cons_of_ne_nil hne
  unfold positional
  split
  · exact ⟨'0', _, rfl, by decide⟩
  · obtain ⟨n, hn⟩ : ∃ n, point.toNat = n + 1 := ⟨point.toNat - 1, by omega⟩
    rw [hn]
    exact ⟨d, _, rfl, hd d List.mem_cons_self⟩

theorem head_scientific {ds : List Char} (hd : ∀ c ∈ ds, c.isDigit) (hne : ds ≠ [])
    (point : Int) : ∃ c cs, scientific ds point = c :: cs ∧ c.isDigit := by
  obtain ⟨d, tail, rfl⟩ := List.exists_cons_of_ne_nil hne
  exact ⟨d, _, rfl, hd d List.mem_cons_self⟩

/-- A magnitude begins with a digit. -/
theorem head_magnitudeChars {code : Code} (h : code.val < infiniteCode) :
    ∃ c cs, magnitudeChars code = c :: cs ∧ c.isDigit := by
  rw [magnitudeChars, if_neg (Nat.ne_of_lt h)]
  split
  · exact ⟨'0', _, rfl, by decide⟩
  · next hz =>
    have hd (c : Char) :=
      isDigit_of_mem_dropTrailingZeros (n := (shortest code).coefficient) (c := c)
    have hne := dropTrailingZeros_toDigits_ne_nil (coefficient_shortest_ne_zero hz)
    unfold Decimal.chars
    dsimp only
    split
    · exact head_positional hd hne _
    · exact head_scientific hd hne _

theorem isNumeral_of_mem_chars {x : Single} (h : x.IsFinite) : ∀ c ∈ x.chars, IsNumeral c := by
  intro c hc
  cases x with
  | nan => exact absurd h id
  | signed negative code =>
    rcases List.mem_append.1 hc with hc | hc
    · cases negative with
      | false => exact absurd hc List.not_mem_nil
      | true => exact .inr (.inr (.inl (List.mem_singleton.1 hc)))
    · exact isNumeral_of_mem_magnitudeChars h c hc

theorem any_isDigit_chars {x : Single} (h : x.IsFinite) : x.chars.any Char.isDigit := by
  cases x with
  | nan => exact absurd h id
  | signed negative code =>
    obtain ⟨c, cs, hc, hd⟩ := head_magnitudeChars h
    rw [chars, hc, List.any_append, List.any_cons, hd, Bool.true_or, Bool.or_true]

theorem toLower_of_isDigit {c : Char} (h : c.isDigit) : c.toLower = c := by
  simp only [Char.isDigit, Bool.and_eq_true, decide_eq_true_eq] at h
  have hA : ¬ (c.val ≥ 'A'.val ∧ c.val ≤ 'Z'.val) := by
    rintro ⟨hA, -⟩
    exact absurd (UInt32.le_trans hA h.2) (by decide)
  exact dif_neg hA

/-- The text of a finite number reads back as that number. -/
theorem read?_chars {x : Single} (h : x.IsFinite) : read? x.chars = some x := by
  cases x with
  | nan => exact absurd h id
  | signed negative code =>
    obtain ⟨c, cs, hc, hd⟩ := head_magnitudeChars h
    have hs : splitSign (chars (signed negative code)) = (negative, magnitudeChars code) := by
      cases negative with
      | false =>
        simp only [chars, Bool.false_eq_true, if_false, List.nil_append, hc]
        unfold splitSign
        split
        · next he => exact absurd ((List.cons.inj he).1 ▸ hd) (by decide)
        · next he => exact absurd ((List.cons.inj he).1 ▸ hd) (by decide)
        · rfl
      | true => rfl
    -- A word for infinity or NaN does not begin with a digit.
    have hw (d : Char) (ds : List Char) (hd' : d.isDigit = false) :
        (magnitudeChars code).map Char.toLower ≠ d :: ds := by
      rw [hc, List.map_cons, toLower_of_isDigit hd]
      rintro ⟨rfl, -⟩
      rw [hd] at hd'
      exact absurd hd' (by decide)
    simp only [read?, hs, readMagnitude_magnitudeChars h]
    rw [if_neg (hw _ _ (by decide)), if_neg]
    · rfl
    · rintro (h | h)
      · exact hw _ _ (by decide) h
      · exact hw _ _ (by decide) h

end SmallLisp.Single
