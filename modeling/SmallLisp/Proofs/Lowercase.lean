import Mathlib.Data.List.TakeWhile
import SmallLisp.Text.Lowercase

/-! Lowercase text. What is in lowercase stays as it is. The lowercase form of a text
is that of its first part followed by that of the rest, unless the first part ends in a
capital sigma that the rest keeps from being the end of a word. -/

namespace SmallLisp.Text

/-! ### Letters of ASCII -/

/-- Only capital letters have another lowercase form within ASCII. -/
theorem toLower_cases (c : Char) :
    c.toLower = c ∨ 65 ≤ c.toNat ∧ c.toNat ≤ 90 ∧ c.toLower.toNat = c.toNat + 32 := by
  unfold Char.toLower
  split
  · next h =>
    obtain ⟨hlow, hhigh⟩ := h
    rw [ge_iff_le, UInt32.le_iff_toNat_le] at hlow
    rw [UInt32.le_iff_toNat_le] at hhigh
    have hsmall : c.toNat + 32 < 2 ^ 32 :=
      Nat.lt_of_le_of_lt (Nat.add_le_add_right hhigh 32) (by decide)
    exact .inr ⟨hlow, hhigh, (UInt32.toNat_add ..).trans (Nat.mod_eq_of_lt hsmall)⟩
  · exact .inl rfl

theorem toLower_toLower (c : Char) : c.toLower.toLower = c.toLower := by
  rcases toLower_cases c.toLower with h | ⟨hlow, hhigh, -⟩
  · exact h
  · rcases toLower_cases c with h | ⟨hlow', hhigh', h⟩
    · rw [h, h]
    · omega

theorem toLower_of_le {c : Char} (h : 128 ≤ c.toNat) : c.toLower = c := by
  rcases toLower_cases c with hc | ⟨-, hhigh, -⟩
  · exact hc
  · omega

theorem toLower_lt {c : Char} (h : c.toNat < 128) : c.toLower.toNat < 128 := by
  rcases toLower_cases c with hc | ⟨-, hhigh, hc⟩
  · rwa [hc]
  · omega

/-- A character that is no letter of ASCII is the lowercase form of itself alone. -/
theorem toLower_eq_iff {c d : Char} (hd : d.toNat < 65 ∨ 122 < d.toNat) :
    c.toLower = d ↔ c = d := by
  rcases toLower_cases c with h | ⟨hlow, hhigh, h⟩
  · rw [h]
  · refine iff_of_false ?_ ?_ <;> rintro rfl <;> omega

theorem isDigit_toLower (c : Char) : c.toLower.isDigit = c.isDigit := by
  have hletter {d : Char} (hd : 57 < d.toNat) : d.isDigit = false := by
    simp only [Char.isDigit, Bool.and_eq_false_iff, decide_eq_false_iff_not,
      UInt32.le_iff_toNat_le]
    exact .inr (Nat.not_le.2 hd)
  rcases toLower_cases c with h | ⟨hlow, hhigh, h⟩
  · rw [h]
  · rw [hletter (d := c) (by omega), hletter (d := c.toLower) (by omega)]

/-! ### The table of letter case -/

/-- The uppercase letters of a run. -/
def CaseRun.letters (r : CaseRun) : List Nat :=
  List.range' r.first ((r.last - r.first) / r.stride + 1) r.stride

/-- Their lowercase forms. -/
def CaseRun.images (r : CaseRun) : List Nat := r.letters.map fun (n : Nat) => (n + r.shift).toNat

theorem CaseRun.mem_letters {r : CaseRun} {n : Nat} (h : r.covers n) : n ∈ r.letters := by
  simp only [covers, Bool.and_eq_true, decide_eq_true_eq, beq_iff_eq] at h
  obtain ⟨⟨hfirst, hlast⟩, hmod⟩ := h
  refine List.mem_range'.2 ⟨(n - r.first) / r.stride, ?_, ?_⟩
  · exact Nat.lt_succ_of_le (Nat.div_le_div_right (Nat.sub_le_sub_right hlast _))
  · have hdiv := Nat.div_add_mod (n - r.first) r.stride
    rw [hmod] at hdiv
    omega

/-- Numbers as the bits of one number: so that many can be compared with many. -/
def maskOf (ns : List Nat) : Nat := ns.foldr (fun n mask => 1 <<< n ||| mask) 0

theorem testBit_maskOf {ns : List Nat} {n : Nat} : (maskOf ns).testBit n ↔ n ∈ ns := by
  induction ns with
  | nil => simp [maskOf]
  | cons m ns ih =>
    rw [maskOf, List.foldr_cons, Nat.testBit_or, Bool.or_eq_true, Nat.one_shiftLeft,
      Nat.testBit_two_pow, decide_eq_true_eq, List.mem_cons, eq_comm]
    exact or_congr_right ih

theorem maskOf_and_eq_zero :
    maskOf (caseRuns.flatMap CaseRun.letters) &&& maskOf (caseRuns.flatMap CaseRun.images) = 0 := by
  decide +kernel

/-- Among the letters of the table only the Kelvin sign has a lowercase form in ASCII. -/
theorem images_valid : ∀ n ∈ caseRuns.flatMap CaseRun.images,
    n.isValidChar ∧ n ≠ 'İ'.toNat ∧ (128 ≤ n ∨ n = 'k'.toNat) := by
  decide +kernel

/-- No lowercase form is an uppercase letter. -/
theorem not_covers_of_mem_images {n : Nat} (h : n ∈ caseRuns.flatMap CaseRun.images) {r : CaseRun}
    (hr : r ∈ caseRuns) : ¬r.covers n := by
  intro hc
  have hletter := testBit_maskOf.2 (List.mem_flatMap.2 ⟨r, hr, CaseRun.mem_letters hc⟩)
  have hboth := congrArg (Nat.testBit · n) maskOf_and_eq_zero
  simp only [Nat.testBit_and, hletter, testBit_maskOf.2 h, Nat.zero_testBit] at hboth
  cases hboth

theorem exists_covers_sigma : ∃ r ∈ caseRuns, r.covers 'Σ'.toNat :=
  List.any_eq_true.1 (by decide +kernel)

/-! ### Characters in lowercase -/

/-- A character that the lowercase form of any text keeps. -/
def IsLower (c : Char) : Prop := c ≠ 'Σ' ∧ lowercaseChar c = [c]

theorem lowercaseChar_of_lt {c : Char} (h : c.toNat < 128) : lowercaseChar c = [c.toLower] :=
  if_pos h

theorem isLower_toLower {c : Char} (h : c.toNat < 128) : IsLower c.toLower := by
  have hlt := toLower_lt h
  refine ⟨fun hc => ?_, by rw [lowercaseChar_of_lt hlt, toLower_toLower]⟩
  exact absurd (hc ▸ hlt) (by decide)

theorem isLower_of_not_covers {c : Char} (hc : 128 ≤ c.toNat) (hi : c ≠ 'İ')
    (h : ∀ r ∈ caseRuns, ¬r.covers c.toNat) : IsLower c := by
  refine ⟨?_, ?_⟩
  · rintro rfl
    obtain ⟨r, hr, hsigma⟩ := exists_covers_sigma
    exact h r hr hsigma
  · rw [lowercaseChar, if_neg (Nat.not_lt.2 hc), if_neg hi, List.find?_eq_none.2 h]

/-- Beyond ASCII all characters but one have a lowercase form of a single character. -/
theorem lowercaseChar_cases {c : Char} (hc : 128 ≤ c.toNat) :
    c = 'İ' ∨ ∃ d, lowercaseChar c = [d] ∧ IsLower d ∧ (128 ≤ d.toNat ∨ d = 'k') := by
  by_cases hi : c = 'İ'
  · exact .inl hi
  refine .inr ?_
  cases hrun : caseRuns.find? (·.covers c.toNat) with
  | none =>
    have hlower := isLower_of_not_covers hc hi (List.find?_eq_none.1 hrun)
    exact ⟨c, hlower.2, hlower, .inl hc⟩
  | some r =>
    have hr := List.mem_of_find?_eq_some hrun
    have hcovers := List.find?_some hrun
    have hcovers : r.covers c.toNat := hcovers
    have himage : (c.toNat + r.shift).toNat ∈ caseRuns.flatMap CaseRun.images :=
      List.mem_flatMap.2 ⟨r, hr, List.mem_map_of_mem (CaseRun.mem_letters hcovers)⟩
    refine ⟨Char.ofNat (c.toNat + r.shift).toNat, ?_, ?_⟩
    · rw [lowercaseChar, if_neg (Nat.not_lt.2 hc), if_neg hi, hrun]
    · obtain ⟨hvalid, hne, hn⟩ := images_valid _ himage
      generalize (c.toNat + r.shift).toNat = n at himage hvalid hne hn
      have hnumber : (Char.ofNat n).toNat = n := by
        rw [Char.ofNat, dif_pos hvalid]
        rfl
      rcases hn with hn | rfl
      · refine ⟨isLower_of_not_covers (hnumber.symm ▸ hn) (fun h => ?_) ?_,
          .inl (hnumber.symm ▸ hn)⟩
        · exact hne (hnumber.symm.trans (congrArg Char.toNat h))
        · rw [hnumber]
          exact fun r hr => not_covers_of_mem_images himage hr
      · exact ⟨isLower_toLower (c := 'k') (by decide), .inr rfl⟩

theorem isLower_of_mem_lowercaseChar {c d : Char} (h : d ∈ lowercaseChar c) : IsLower d := by
  by_cases hc : c.toNat < 128
  · rw [lowercaseChar_of_lt hc, List.mem_singleton] at h
    exact h ▸ isLower_toLower hc
  · rcases lowercaseChar_cases (Nat.not_lt.1 hc) with rfl | ⟨e, he, hlower, -⟩
    · rcases List.mem_cons.1 h with rfl | h
      · exact isLower_toLower (c := 'i') (by decide)
      · rw [List.mem_singleton.1 h]
        exact ⟨by decide, by decide +kernel⟩
    · rw [he, List.mem_singleton] at h
      exact h ▸ hlower

/-! ### Texts in lowercase -/

/-- The lowercase form of one character of a text, which may depend on what is around it. -/
def lowercaseWithin (before : List Char) (c : Char) (after : List Char) : List Char :=
  if c = 'Σ' then [if beginsCased before && !beginsCased after then 'ς' else 'σ']
  else lowercaseChar c

theorem lowercaseAfter_cons (before : List Char) (c : Char) (cs : List Char) :
    lowercaseAfter before (c :: cs) =
      lowercaseWithin before c cs ++ lowercaseAfter (c :: before) cs := rfl

theorem isLower_of_mem_lowercaseWithin {before after : List Char} {c d : Char}
    (h : d ∈ lowercaseWithin before c after) : IsLower d := by
  unfold lowercaseWithin at h
  split at h
  · rw [List.mem_singleton] at h
    subst h
    split <;> exact ⟨by decide, by decide +kernel⟩
  · exact isLower_of_mem_lowercaseChar h

theorem isLower_of_mem_lowercaseAfter {before cs : List Char} {d : Char}
    (h : d ∈ lowercaseAfter before cs) : IsLower d := by
  induction cs generalizing before with
  | nil => cases h
  | cons c cs ih =>
    rcases List.mem_append.1 h with h | h
    · exact isLower_of_mem_lowercaseWithin h
    · exact ih h

theorem isLower_of_mem_lowercase {s : String} {c : Char} (h : c ∈ (lowercase s).toList) :
    IsLower c := by
  rw [lowercase, String.toList_ofList] at h
  exact isLower_of_mem_lowercaseAfter h

theorem lowercaseAfter_of_isLower {cs : List Char} (h : ∀ c ∈ cs, IsLower c)
    (before : List Char) : lowercaseAfter before cs = cs := by
  induction cs generalizing before with
  | nil => rfl
  | cons c cs ih =>
    obtain ⟨⟨hsigma, hc⟩, hcs⟩ := List.forall_mem_cons.1 h
    rw [lowercaseAfter_cons, lowercaseWithin, if_neg hsigma, hc, ih hcs, List.singleton_append]

/-! ### The final sigma -/

theorem beginsCased_of_ignorable {cs : List Char} (h : ∀ c ∈ cs, isCaseIgnorable c)
    (ds : List Char) : beginsCased (cs ++ ds) = beginsCased ds := by
  rw [beginsCased, List.dropWhile_append_of_pos h, beginsCased]

theorem beginsCased_eq_false {cs : List Char} (h : ∀ c ∈ cs, isCaseIgnorable c) :
    beginsCased cs = false := by
  rw [← List.append_nil cs, beginsCased_of_ignorable h]
  rfl

theorem beginsCased_of_not_ignorable {cs : List Char} (h : ¬∀ c ∈ cs, isCaseIgnorable c)
    (ds : List Char) : beginsCased (cs ++ ds) = beginsCased cs := by
  rw [← List.dropWhile_eq_nil_iff] at h
  obtain ⟨d, rest, hd⟩ := List.exists_cons_of_ne_nil h
  rw [beginsCased, beginsCased, List.dropWhile_append, hd]
  rfl

/-- A capital sigma ends a word of the first text, where nothing but characters that are
passed over comes after it, and is in the middle of a word when the second text follows. -/
def SplitsSigma (before cs ds : List Char) : Prop :=
  ∃ us vs, cs = us ++ 'Σ' :: vs ∧ beginsCased (us.reverse ++ before) ∧
    (∀ v ∈ vs, isCaseIgnorable v) ∧ beginsCased ds

theorem splitsSigma_cons {before cs ds : List Char} {c : Char} :
    SplitsSigma before (c :: cs) ds ↔
      (c = 'Σ' ∧ beginsCased before ∧ (∀ d ∈ cs, isCaseIgnorable d) ∧ beginsCased ds) ∨
        SplitsSigma (c :: before) cs ds := by
  constructor
  · rintro ⟨us, vs, hcs, hbefore, hvs, hds⟩
    cases us with
    | nil =>
      obtain ⟨rfl, rfl⟩ := List.cons.inj hcs
      exact .inl ⟨rfl, hbefore, hvs, hds⟩
    | cons u us =>
      obtain ⟨rfl, rfl⟩ := List.cons.inj hcs
      rw [List.reverse_cons, List.append_assoc] at hbefore
      exact .inr ⟨us, vs, rfl, hbefore, hvs, hds⟩
  · rintro (⟨rfl, hbefore, hcs, hds⟩ | ⟨us, vs, rfl, hbefore, hvs, hds⟩)
    · exact ⟨[], cs, rfl, hbefore, hcs, hds⟩
    · refine ⟨c :: us, vs, rfl, ?_, hvs, hds⟩
      rwa [List.reverse_cons, List.append_assoc]

/-- Only a capital sigma that ends a word depends on what follows its text. -/
theorem lowercaseWithin_append_eq_iff {before cs ds : List Char} {c : Char} :
    lowercaseWithin before c (cs ++ ds) = lowercaseWithin before c cs ↔
      ¬(c = 'Σ' ∧ beginsCased before ∧ (∀ d ∈ cs, isCaseIgnorable d) ∧ beginsCased ds) := by
  by_cases hc : c = 'Σ'
  · simp only [lowercaseWithin, hc, true_and]
    by_cases hcs : ∀ d ∈ cs, isCaseIgnorable d
    · rw [beginsCased_of_ignorable hcs, beginsCased_eq_false hcs, and_iff_right hcs]
      cases beginsCased before <;> cases beginsCased ds <;> simp
    · rw [beginsCased_of_not_ignorable hcs]
      exact iff_of_true rfl fun h => hcs h.2.1
  · simp only [lowercaseWithin, if_neg hc]
    exact iff_of_true trivial fun h => hc h.1

theorem length_lowercaseWithin (before after after' : List Char) (c : Char) :
    (lowercaseWithin before c after).length = (lowercaseWithin before c after').length := by
  unfold lowercaseWithin
  split <;> rfl

/-- A text is put in lowercase part by part exactly if no sigma is split off. -/
theorem lowercaseAfter_append_eq_iff {before cs ds : List Char} :
    lowercaseAfter before (cs ++ ds) =
        lowercaseAfter before cs ++ lowercaseAfter (cs.reverse ++ before) ds ↔
      ¬SplitsSigma before cs ds := by
  induction cs generalizing before with
  | nil =>
    refine iff_of_true rfl ?_
    rintro ⟨us, vs, h, -⟩
    exact absurd h (by simp)
  | cons c cs ih =>
    have hrev : (c :: cs).reverse ++ before = cs.reverse ++ c :: before := by
      rw [List.reverse_cons, List.append_assoc, List.singleton_append]
    rw [List.cons_append, lowercaseAfter_cons, lowercaseAfter_cons, List.append_assoc, hrev,
      List.append_eq_append_iff_of_size_eq_left (length_lowercaseWithin ..), splitsSigma_cons,
      not_or]
    exact and_congr lowercaseWithin_append_eq_iff ih

theorem lowercase_append_eq_iff {s t : String} (ht : ∀ c ∈ t.toList, IsLower c) :
    lowercase (s ++ t) = lowercase s ++ t ↔ ¬SplitsSigma [] s.toList t.toList := by
  rw [← lowercaseAfter_append_eq_iff, lowercaseAfter_of_isLower ht, ← String.toList_inj,
    String.toList_append, lowercase, lowercase, String.toList_ofList, String.toList_ofList,
    String.toList_append]

end SmallLisp.Text
