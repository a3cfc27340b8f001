import SmallLisp.Proofs.Lowercase
import SmallLisp.Proofs.Printing

/-! The kinds of words in lowercase. All words but names are made of few characters,
none of which is the lowercase form of a letter beyond ASCII; so a word is a token of
the same kind in lowercase. -/

namespace SmallLisp

open Text (toLower_cases toLower_toLower toLower_of_le toLower_eq_iff isDigit_toLower)

/-! ### Plain characters -/

/-- A character of ASCII other than `k`, which is also the lowercase form of the Kelvin sign. -/
def Text.IsPlain (c : Char) : Prop := c.toNat < 128 ∧ c.toLower ≠ 'k'

namespace Text

instance (c : Char) : Decidable (IsPlain c) := inferInstanceAs (Decidable (_ ∧ _))

theorem isPlain_toLower {c : Char} : IsPlain c.toLower ↔ IsPlain c := by
  rw [IsPlain, IsPlain, toLower_toLower]
  refine and_congr_left fun _ => ⟨fun h => Classical.byContradiction fun hc => ?_, toLower_lt⟩
  rw [toLower_of_le (Nat.not_lt.1 hc)] at h
  exact hc h

theorem isPlain_of_isDigit {c : Char} (h : c.isDigit) : IsPlain c := by
  refine ⟨?_, fun hk => ?_⟩
  · simp only [Char.isDigit, Bool.and_eq_true, decide_eq_true_eq, UInt32.le_iff_toNat_le] at h
    exact Nat.lt_of_le_of_lt h.2 (by decide)
  · rw [← isDigit_toLower, hk] at h
    cases h

theorem isPlain_of_map_toLower {cs ds : List Char} (h : cs.map Char.toLower = ds)
    (hd : ds.all (IsPlain ·)) : ∀ c ∈ cs, IsPlain c := by
  intro c hc
  have hlower := List.all_eq_true.1 hd _ (h ▸ List.mem_map_of_mem hc)
  exact isPlain_toLower.1 (of_decide_eq_true hlower)

end Text

open Text (IsPlain isPlain_of_isDigit isPlain_of_map_toLower)

/-! ### Numbers -/

namespace Single

theorem splitSign_cons (c : Char) (cs : List Char) :
    splitSign (c :: cs) =
      if c = '-' then (true, cs) else if c = '+' then (false, cs) else (false, c :: cs) := by
  by_cases hm : c = '-'
  · subst hm
    rfl
  · by_cases hp : c = '+'
    · subst hp
      rfl
    · rw [if_neg hm, if_neg hp, splitSign]
      · rintro _ ⟨⟩
        exact hm rfl
      · rintro _ ⟨⟩
        exact hp rfl

theorem splitSign_map_toLower (cs : List Char) :
    splitSign (cs.map Char.toLower) = ((splitSign cs).1, (splitSign cs).2.map Char.toLower) := by
  cases cs with
  | nil => rfl
  | cons c cs =>
    have hminus : c.toLower = '-' ↔ c = '-' := toLower_eq_iff (.inl (by decide))
    have hplus : c.toLower = '+' ↔ c = '+' := toLower_eq_iff (.inl (by decide))
    simp only [List.map_cons, splitSign_cons, hminus, hplus]
    split
    · rfl
    · split <;> rfl

theorem map_toLower_of_isDigit {cs : List Char} (h : ∀ c ∈ cs, c.isDigit) :
    cs.map Char.toLower = cs :=
  (List.map_congr_left fun c hc => toLower_of_isDigit (h c hc)).trans (List.map_id cs)

theorem takeWhile_isDigit_map_toLower (cs : List Char) :
    (cs.map Char.toLower).takeWhile Char.isDigit = cs.takeWhile Char.isDigit := by
  rw [List.takeWhile_map, show Char.isDigit ∘ Char.toLower = Char.isDigit from
    funext isDigit_toLower, map_toLower_of_isDigit fun c hc => List.mem_takeWhile_imp hc]

theorem dropWhile_isDigit_map_toLower (cs : List Char) :
    (cs.map Char.toLower).dropWhile Char.isDigit =
      (cs.dropWhile Char.isDigit).map Char.toLower := by
  rw [List.dropWhile_map, show Char.isDigit ∘ Char.toLower = Char.isDigit from
    funext isDigit_toLower]

theorem all_isDigit_map_toLower (cs : List Char) :
    (cs.map Char.toLower).all Char.isDigit = cs.all Char.isDigit := by
  rw [List.all_map, show Char.isDigit ∘ Char.toLower = Char.isDigit from funext isDigit_toLower]

theorem readExponentDigits_map_toLower (cs : List Char) :
    readExponentDigits (cs.map Char.toLower) = readExponentDigits cs := by
  simp only [readExponentDigits, splitSign_map_toLower, all_isDigit_map_toLower, ne_eq,
    List.map_eq_nil_iff]
  split
  · next h => rw [map_toLower_of_isDigit (List.all_eq_true.1 h.2)]
  · rfl

theorem toLower_eq_e {c : Char} : c.toLower = 'e' ∨ c.toLower = 'E' ↔ c = 'e' ∨ c = 'E' := by
  have hnumber {c d : Char} (h : c.toNat = d.toNat) : c = d :=
    Char.ext (UInt32.toNat_inj.1 h)
  rcases toLower_cases c with h | ⟨hlow, hhigh, h⟩
  · rw [h]
  · constructor
    · rintro (hc | hc)
      · rw [hc] at h
        exact .inr (hnumber (by change _ = 69; change 101 = _ at h; omega))
      · rw [hc] at h
        change 69 = _ at h
        omega
    · rintro (rfl | rfl)
      · exact absurd hhigh (by decide)
      · exact .inl rfl

theorem readExponent_map_toLower (cs : List Char) :
    readExponent (cs.map Char.toLower) = readExponent cs := by
  cases cs with
  | nil => rfl
  | cons c cs =>
    simp only [List.map_cons, readExponent, toLower_eq_e, readExponentDigits_map_toLower]

theorem splitFraction_cons (c : Char) (cs : List Char) :
    splitFraction (c :: cs) =
      if c = '.' then (cs.takeWhile Char.isDigit, cs.dropWhile Char.isDigit)
      else ([], c :: cs) := by
  by_cases hc : c = '.'
  · subst hc
    rfl
  · rw [if_neg hc, splitFraction]
    rintro _ ⟨⟩
    exact hc rfl

theorem splitFraction_map_toLower (cs : List Char) :
    splitFraction (cs.map Char.toLower) =
      ((splitFraction cs).1, (splitFraction cs).2.map Char.toLower) := by
  cases cs with
  | nil => rfl
  | cons c cs =>
    have hpoint : c.toLower = '.' ↔ c = '.' := toLower_eq_iff (.inl (by decide))
    simp only [List.map_cons, splitFraction_cons, hpoint, takeWhile_isDigit_map_toLower,
      dropWhile_isDigit_map_toLower]
    split <;> rfl

theorem readMagnitude_map_toLower (cs : List Char) :
    readMagnitude (cs.map Char.toLower) = readMagnitude cs := by
  simp only [readMagnitude, takeWhile_isDigit_map_toLower, dropWhile_isDigit_map_toLower,
    splitFraction_map_toLower, readExponent_map_toLower]

/-- The case of letters makes no difference to a number. -/
theorem read?_map_toLower (cs : List Char) : read? (cs.map Char.toLower) = read? cs := by
  have hmap (cs : List Char) : (cs.map Char.toLower).map Char.toLower = cs.map Char.toLower := by
    rw [List.map_map, show Char.toLower ∘ Char.toLower = Char.toLower from funext toLower_toLower]
  simp only [read?, splitSign_map_toLower, hmap, readMagnitude_map_toLower]

/-! Texts of numbers are plain. -/

theorem isPlain_of_splitSign {cs : List Char} (h : ∀ c ∈ (splitSign cs).2, IsPlain c) :
    ∀ c ∈ cs, IsPlain c := by
  cases cs with
  | nil => exact h
  | cons c cs =>
    rw [splitSign_cons] at h
    split at h
    · next hc => exact List.forall_mem_cons.2 ⟨hc ▸ by decide, h⟩
    · split at h
      · next hc => exact List.forall_mem_cons.2 ⟨hc ▸ by decide, h⟩
      · exact h

theorem isPlain_of_readExponent {cs : List Char} {e : Int} (h : readExponent cs = some e) :
    ∀ c ∈ cs, IsPlain c := by
  cases cs with
  | nil => exact fun c hc => absurd hc List.not_mem_nil
  | cons c cs =>
    rw [readExponent] at h
    split at h
    · next hc =>
      refine List.forall_mem_cons.2 ⟨by rcases hc with rfl | rfl <;> decide, ?_⟩
      simp only [readExponentDigits] at h
      split at h
      · next hd =>
        exact isPlain_of_splitSign fun c hc => isPlain_of_isDigit (List.all_eq_true.1 hd.2 c hc)
      · cases h
    · cases h

theorem isPlain_of_readMagnitude {cs : List Char} {m : Code} (h : readMagnitude cs = some m) :
    ∀ c ∈ cs, IsPlain c := by
  have hdigits (cs : List Char) : ∀ c ∈ cs.takeWhile Char.isDigit, IsPlain c :=
    fun c hc => isPlain_of_isDigit (List.mem_takeWhile_imp hc)
  have hfraction {cs : List Char} (h : ∀ c ∈ (splitFraction cs).2, IsPlain c) :
      ∀ c ∈ cs, IsPlain c := by
    cases cs with
    | nil => exact h
    | cons c cs =>
      rw [splitFraction_cons] at h
      split at h
      · next hc =>
        rw [← List.takeWhile_append_dropWhile (p := Char.isDigit) (l := cs)]
        exact List.forall_mem_cons.2 ⟨hc ▸ by decide, List.forall_mem_append.2 ⟨hdigits cs, h⟩⟩
      · exact h
  rw [← List.takeWhile_append_dropWhile (p := Char.isDigit) (l := cs)]
  refine List.forall_mem_append.2 ⟨hdigits cs, hfraction ?_⟩
  simp only [readMagnitude] at h
  split at h
  · cases h
  · obtain ⟨e, he, -⟩ := Option.map_eq_some_iff.1 h
    exact isPlain_of_readExponent he

theorem isPlain_of_read? {cs : List Char} {x : Single} (h : read? cs = some x) :
    ∀ c ∈ cs, IsPlain c := by
  refine isPlain_of_splitSign ?_
  simp only [read?] at h
  split at h
  · next hn => exact isPlain_of_map_toLower hn (by decide)
  · split at h
    · next hi => rcases hi with hi | hi <;> exact isPlain_of_map_toLower hi (by decide)
    · obtain ⟨m, hm, -⟩ := Option.map_eq_some_iff.1 h
      exact isPlain_of_readMagnitude hm

end Single

/-! ### Kinds -/

namespace TokenKind

open Text (equalsIgnoringCase)

theorem equalsIgnoringCase_map_toLower (cs : List Char) (s : String) :
    equalsIgnoringCase (String.ofList (cs.map Char.toLower)) s =
      equalsIgnoringCase (String.ofList cs) s := by
  rw [equalsIgnoringCase, equalsIgnoringCase, String.toList_ofList, String.toList_ofList,
    List.map_map, show Char.toLower ∘ Char.toLower = Char.toLower from funext toLower_toLower]

theorem ofWord_map_toLower (cs : List Char) :
    ofWord (String.ofList (cs.map Char.toLower)) = ofWord (String.ofList cs) := by
  have hdigit : (cs.map Char.toLower).any Char.isDigit = cs.any Char.isDigit := by
    rw [List.any_map, show Char.isDigit ∘ Char.toLower = Char.isDigit from funext isDigit_toLower]
  simp only [ofWord, equalsIgnoringCase_map_toLower, Single.ofText?, String.toList_ofList, hdigit,
    Single.read?_map_toLower]

/-- A word that is no name is plain. -/
theorem isPlain_of_ofWord_ne {word : String} (h : ofWord word ≠ .identifier) :
    ∀ c ∈ word.toList, IsPlain c := by
  have hword {s : String} (h : equalsIgnoringCase word s)
      (hs : (s.toList.map Char.toLower).all (IsPlain ·)) : ∀ c ∈ word.toList, IsPlain c :=
    isPlain_of_map_toLower (beq_iff_eq.1 h) hs
  unfold ofWord at h
  split at h
  · next hn =>
    obtain ⟨-, hx⟩ := Bool.and_eq_true_iff.1 hn
    obtain ⟨x, hx⟩ := Option.isSome_iff_exists.1 hx
    exact Single.isPlain_of_read? hx
  · split at h
    · next k hk =>
      have hk := List.find?_some hk
      exact hword hk (by cases k <;> decide)
    · split at h
      · next hb =>
        rcases Bool.or_eq_true_iff.1 hb with hb | hb <;> exact hword hb (by decide)
      · exact absurd rfl h

theorem ofWord_eq_identifier {word : String} {c : Char} (hc : c ∈ word.toList)
    (h : ¬IsPlain c) : ofWord word = .identifier :=
  Classical.byContradiction fun hne => h (isPlain_of_ofWord_ne hne c hc)

end TokenKind

/-! ### Words in lowercase -/

namespace Text

theorem lowercaseAfter_of_lt {cs : List Char} (h : ∀ c ∈ cs, c.toNat < 128) (before : List Char) :
    lowercaseAfter before cs = cs.map Char.toLower := by
  induction cs generalizing before with
  | nil => rfl
  | cons c cs ih =>
    obtain ⟨hc, hcs⟩ := List.forall_mem_cons.1 h
    have hsigma : c ≠ 'Σ' := fun h => absurd (h ▸ hc) (by decide)
    rw [lowercaseAfter_cons, lowercaseWithin, if_neg hsigma, lowercaseChar_of_lt hc, ih hcs,
      List.singleton_append, List.map_cons]

/-- A letter beyond ASCII is not plain in lowercase either. -/
theorem exists_not_isPlain_lowercaseWithin {c : Char} (hc : 128 ≤ c.toNat)
    (before after : List Char) : ∃ d ∈ lowercaseWithin before c after, ¬IsPlain d := by
  have hbeyond {d : Char} (hd : 128 ≤ d.toNat) : ¬IsPlain d := fun h => Nat.not_lt.2 hd h.1
  unfold lowercaseWithin
  split
  · refine ⟨_, List.mem_singleton_self _, ?_⟩
    split <;> decide
  · rcases lowercaseChar_cases hc with rfl | ⟨d, hd, -, hd' | rfl⟩
    · exact ⟨'\u0307', List.mem_cons_of_mem _ (List.mem_singleton_self _), by decide⟩
    · exact ⟨d, hd ▸ List.mem_singleton_self d, hbeyond hd'⟩
    · exact ⟨'k', hd ▸ List.mem_singleton_self 'k', by decide⟩

theorem exists_not_isPlain_lowercaseAfter {cs : List Char} {c : Char} (hc : c ∈ cs)
    (hbeyond : 128 ≤ c.toNat) (before : List Char) :
    ∃ d ∈ lowercaseAfter before cs, ¬IsPlain d := by
  induction cs generalizing before with
  | nil => cases hc
  | cons b cs ih =>
    rw [lowercaseAfter_cons]
    rcases List.mem_cons.1 hc with rfl | hc
    · obtain ⟨d, hd, hplain⟩ := exists_not_isPlain_lowercaseWithin hbeyond before cs
      exact ⟨d, List.mem_append_left _ hd, hplain⟩
    · obtain ⟨d, hd, hplain⟩ := ih hc (b :: before)
      exact ⟨d, List.mem_append_right _ hd, hplain⟩

end Text

/-- A word is a token of the same kind in lowercase. -/
theorem TokenKind.ofWord_lowercase (word : String) :
    ofWord (Text.lowercase word) = ofWord word := by
  by_cases h : ∀ c ∈ word.toList, c.toNat < 128
  · rw [Text.lowercase, Text.lowercaseAfter_of_lt h, ofWord_map_toLower, String.ofList_toList]
  · obtain ⟨c, hc⟩ := Classical.not_forall.1 h
    obtain ⟨hc, hbeyond⟩ := Classical.not_imp.1 hc
    obtain ⟨d, hd, hplain⟩ :=
      Text.exists_not_isPlain_lowercaseAfter hc (Nat.not_lt.1 hbeyond) []
    rw [ofWord_eq_identifier hc fun h => hbeyond h.1]
    exact ofWord_eq_identifier (by rwa [Text.lowercase, String.toList_ofList]) hplain

theorem isWordChar_of_le {c : Char} (h : 94 ≤ c.toNat) : isWordChar c := by
  have hne (d : Char) (hd : d.toNat < 94) : c ≠ d := by
    rintro rfl
    exact absurd h (Nat.not_le.2 hd)
  have hb : TokenKind.ofBracket? c = none := by
    unfold TokenKind.ofBracket?
    split <;> first | rfl | exact absurd h (by decide)
  simp [isWordChar, isSeparator, hb, hne ' ' (by decide), hne '\t' (by decide),
    hne '\n' (by decide), hne '\r' (by decide), hne '\x0c' (by decide), hne '"' (by decide)]

theorem isWordChar_toLower {c : Char} (h : isWordChar c) : isWordChar c.toLower := by
  rcases toLower_cases c with hc | ⟨hlow, -, hc⟩
  · rwa [hc]
  · exact isWordChar_of_le (by omega)

theorem isWordChar_of_mem_lowercaseWithin {before after : List Char} {c d : Char}
    (hc : isWordChar c) (h : d ∈ Text.lowercaseWithin before c after) : isWordChar d := by
  unfold Text.lowercaseWithin at h
  split at h
  · rw [List.mem_singleton.1 h]
    split <;> rfl
  · by_cases hlt : c.toNat < 128
    · rw [Text.lowercaseChar_of_lt hlt, List.mem_singleton] at h
      exact h ▸ isWordChar_toLower hc
    · rcases Text.lowercaseChar_cases (Nat.not_lt.1 hlt) with rfl | ⟨e, he, -, he'⟩
      · rcases List.mem_cons.1 h with rfl | h
        · rfl
        · rw [List.mem_singleton.1 h]
          rfl
      · rw [he, List.mem_singleton] at h
        rcases he' with he' | rfl
        · exact isWordChar_of_le (by rw [h]; omega)
        · exact h ▸ rfl

/-- The lowercase form of a word consists of characters of words. -/
theorem isWordChar_of_mem_lowercase {word : String} (h : ∀ c ∈ word.toList, isWordChar c) :
    ∀ d ∈ (Text.lowercase word).toList, isWordChar d := by
  have hafter (before : List Char) {cs : List Char} (h : ∀ c ∈ cs, isWordChar c) :
      ∀ d ∈ Text.lowercaseAfter before cs, isWordChar d := by
    induction cs generalizing before with
    | nil => exact fun d hd => absurd hd List.not_mem_nil
    | cons c cs ih =>
      obtain ⟨hc, hcs⟩ := List.forall_mem_cons.1 h
      rw [Text.lowercaseAfter_cons]
      exact List.forall_mem_append.2 ⟨fun d hd => isWordChar_of_mem_lowercaseWithin hc hd,
        ih _ hcs⟩
  rw [Text.lowercase, String.toList_ofList]
  exact hafter [] h

end SmallLisp
