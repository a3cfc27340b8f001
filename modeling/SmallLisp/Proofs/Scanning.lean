import SmallLisp.Token.Lexer
import SmallLisp.Proofs.Results

/-! The cut of a text into tokens, described without the scanner's recursion. At
each place a text either ends, or begins with a separator, or begins with the
text of one token that can be told apart from what follows it, or opens a quote
that is never closed. Everything about whole texts follows by one induction over
these four cases. -/

namespace SmallLisp

/-! ### Characters -/

/-- A word that stands before the text reaches no further. -/
def Delimited (cs : List Char) : Prop := ∀ c ∈ cs.head?, isWordChar c = false

theorem delimited_nil : Delimited [] := by simp [Delimited]

theorem delimited_cons {c : Char} {cs : List Char} :
    Delimited (c :: cs) ↔ isWordChar c = false := by
  simp [Delimited]

theorem Delimited.append {cs ds : List Char} (hc : Delimited cs) (hd : Delimited ds) :
    Delimited (cs ++ ds) := by
  cases cs with
  | nil => exact hd
  | cons c cs => exact delimited_cons.2 (delimited_cons.1 hc)

theorem delimited_dropWhile (cs : List Char) : Delimited (cs.dropWhile isWordChar) := by
  intro c hc
  have h := List.head?_dropWhile_not isWordChar cs
  rw [hc] at h
  simpa using h

theorem isWordChar_of_isSeparator {c : Char} (h : isSeparator c) : isWordChar c = false := by
  simp [isWordChar, h]

theorem isWordChar_of_ofBracket? {c : Char} {kind : TokenKind}
    (h : TokenKind.ofBracket? c = some kind) : isWordChar c = false := by
  simp [isWordChar, h]

theorem utf8Size_of_isSeparator {c : Char} (h : isSeparator c) : c.utf8Size = 1 := by
  simp only [isSeparator, Bool.or_eq_true, beq_iff_eq] at h
  rcases h with (((rfl | rfl) | rfl) | rfl) | rfl <;> rfl

theorem isSeparator_of_ofBracket? {c : Char} {kind : TokenKind}
    (h : TokenKind.ofBracket? c = some kind) : isSeparator c = false := by
  unfold TokenKind.ofBracket? at h
  split at h <;> first | rfl | simp at h

namespace Token

/-! ### Strings -/

namespace StringRest

theorem split_cons {c : Char} {cs : List Char} (hq : c ≠ '"') (hb : c ≠ '\\') :
    split (c :: cs) = (split cs).push [c] := by
  rw [split]
  · exact hq
  · exact fun h => absurd h hb
  · exact fun _ _ h => absurd h hb

/-- A closed string is the same one whatever follows it. -/
theorem split_eq_closed {cs body rest : List Char} (h : split cs = closed body rest) :
    cs = body ++ rest ∧ ∀ us, split (body ++ us) = closed body us := by
  fun_induction split cs generalizing body with
  | case1 | case3 | case4 => simp at h
  | case2 cs =>
    cases h
    exact ⟨rfl, fun us => by rw [List.singleton_append, split]⟩
  | case5 c cs hc ih =>
    cases hs : split cs with
    | unterminated _ => simp [hs, push] at h
    | closed b r =>
      rw [hs] at h
      obtain ⟨rfl, rfl⟩ := closed.inj h
      obtain ⟨rfl, ht⟩ := ih hs
      refine ⟨rfl, fun us => ?_⟩
      rw [List.append_assoc, List.cons_append, List.cons_append, List.nil_append, split,
        if_neg hc, ht]
      rfl
  | case6 c cs hq hn hc ih =>
    have hb : c ≠ '\\' := by
      rintro rfl
      cases cs with
      | nil => exact hn rfl rfl
      | cons d ds => exact hc d ds rfl rfl
    cases hs : split cs with
    | unterminated _ => simp [hs, push] at h
    | closed b r =>
      rw [hs] at h
      obtain ⟨rfl, rfl⟩ := closed.inj h
      obtain ⟨rfl, ht⟩ := ih hs
      refine ⟨rfl, fun us => ?_⟩
      rw [List.append_assoc, List.singleton_append, split_cons hq hb, ht]
      rfl

end StringRest

/-! ### The first token of a text -/

/-- The text of a token of a given kind, and what may follow it. -/
inductive Cut : List Char → TokenKind → List Char → Prop
  | bracket {c : Char} {kind : TokenKind} (h : TokenKind.ofBracket? c = some kind)
      (rest : List Char) : Cut [c] kind rest
  | string {body : List Char} (h : ∀ us, StringRest.split (body ++ us) = .closed body us)
      (rest : List Char) : Cut ('"' :: body) .string rest
  | word {cs rest : List Char} (hne : cs ≠ []) (hw : ∀ c ∈ cs, isWordChar c)
      (hr : Delimited rest) : Cut cs (.ofWord (String.ofList cs)) rest

namespace Cut

variable {cs rest : List Char} {kind : TokenKind}

/-- More text may follow, if it does not continue a word. -/
theorem append (h : Cut cs kind rest) {ds : List Char} (hd : Delimited ds) :
    Cut cs kind (rest ++ ds) := by
  cases h with
  | bracket hb => exact .bracket hb _
  | string hs => exact .string hs _
  | word hne hw hr => exact .word hne hw (hr.append hd)

theorem alone (h : Cut cs kind rest) : Cut cs kind [] := by
  cases h with
  | bracket hb => exact .bracket hb _
  | string hs => exact .string hs _
  | word hne hw hr => exact .word hne hw delimited_nil

/-- The scanner cuts the token off and goes on with what follows it. -/
theorem scanFrom_append (h : Cut cs kind rest) (start : Nat) :
    scanFrom start (cs ++ rest) =
      (startingAt start kind cs :: ·) <$> scanFrom (start + Text.byteLength cs) rest := by
  cases h with
  | bracket hb =>
    rw [List.singleton_append, scanFrom, if_neg (by simp [isSeparator_of_ofBracket? hb])]
    simp only [hb]
    rfl
  | string hs =>
    rw [List.cons_append, scanFrom, if_neg (by decide)]
    simp only [show TokenKind.ofBracket? '"' = none from rfl, if_true]
    split
    · next hu => simp [hs] at hu
    · next hu =>
      rw [hs] at hu
      obtain ⟨rfl, rfl⟩ := StringRest.closed.inj hu
      rfl
  | word hne hw hr =>
    obtain ⟨c, cs, rfl⟩ := List.exists_cons_of_ne_nil hne
    have hc := hw c List.mem_cons_self
    have hw' : ∀ d ∈ cs, isWordChar d := fun d hd => hw d (List.mem_cons_of_mem c hd)
    simp only [isWordChar, Bool.and_eq_true, Bool.not_eq_true', Option.isNone_iff_eq_none,
      bne_iff_ne] at hc
    have ht : rest.takeWhile isWordChar = [] ∧ rest.dropWhile isWordChar = rest := by
      cases rest with
      | nil => exact ⟨rfl, rfl⟩
      | cons d ds => simp [delimited_cons.1 hr]
    rw [List.cons_append, scanFrom, if_neg (by simp [hc.1.1])]
    simp only [hc.1.2, hc.2, if_false]
    rw [List.takeWhile_append_of_pos hw', List.dropWhile_append_of_pos hw', ht.1, ht.2,
      List.append_nil]
    rfl

end Cut

theorem scanFrom_nil (start : Nat) : scanFrom start [] = .ok [] := by rw [scanFrom]

theorem scanFrom_separator {c : Char} (h : isSeparator c) (start : Nat) (cs : List Char) :
    scanFrom start (c :: cs) = scanFrom (start + c.utf8Size) cs := by
  rw [scanFrom, if_pos h]

theorem scanFrom_unterminated {cs body : List Char}
    (h : StringRest.split cs = .unterminated body) (start : Nat) :
    scanFrom start ('"' :: cs) = .error ⟨start, start + Text.byteLength ('"' :: body)⟩ := by
  rw [scanFrom, if_neg (by decide)]
  simp only [show TokenKind.ofBracket? '"' = none from rfl, if_true]
  split
  · next hu =>
    rw [h] at hu
    rw [StringRest.unterminated.inj hu]
  · next hu => simp [h] at hu

/-- The text of one token is cut into that token. -/
theorem scanFrom_of_cut {cs : List Char} {kind : TokenKind} (h : Cut cs kind []) (start : Nat) :
    scanFrom start cs = .ok [startingAt start kind cs] := by
  have hs := h.scanFrom_append start
  rwa [List.append_nil, scanFrom_nil, except_map_ok] at hs

/-- What a text may begin with. The induction goes over the length of the text. -/
theorem scan_induction {motive : List Char → Prop} (nil : motive [])
    (separator : ∀ c cs, isSeparator c → motive cs → motive (c :: cs))
    (token : ∀ text kind rest, Cut text kind rest → motive rest → motive (text ++ rest))
    (unterminated : ∀ cs body, StringRest.split cs = .unterminated body → motive ('"' :: cs)) :
    ∀ cs, motive cs
  | [] => nil
  | c :: cs => by
    have ih (ds : List Char) (_ : ds.length ≤ cs.length) : motive ds :=
      scan_induction nil separator token unterminated ds
    by_cases hs : isSeparator c
    · exact separator c cs hs (ih cs (Nat.le_refl _))
    cases hb : TokenKind.ofBracket? c with
    | some kind => exact token [c] kind cs (.bracket hb cs) (ih cs (Nat.le_refl _))
    | none =>
      by_cases hq : c = '"'
      · subst hq
        cases hr : StringRest.split cs with
        | unterminated body => exact unterminated cs body hr
        | closed body rest =>
          have hlt := StringRest.split_length hr
          obtain ⟨rfl, ht⟩ := StringRest.split_eq_closed hr
          exact token ('"' :: body) .string rest (.string ht rest) (ih rest (by omega))
      · have hc : isWordChar c := by simp [isWordChar, hs, hb, hq]
        have hw : ∀ d ∈ c :: cs.takeWhile isWordChar, isWordChar d := by
          intro d hd
          rcases List.mem_cons.1 hd with rfl | hd
          · exact hc
          · exact List.all_eq_true.1 List.all_takeWhile d hd
        have hle := (List.dropWhile_suffix (l := cs) isWordChar).length_le
        have h := token _ _ _ (.word (List.cons_ne_nil _ _) hw (delimited_dropWhile cs)) (ih _ hle)
        rwa [List.cons_append, List.takeWhile_append_dropWhile] at h
termination_by cs => cs.length

/-! ### The tokens of a text -/

/-- Every token that the scanner finds is the text of one token. -/
theorem cut_of_mem_scanFrom {start : Nat} {cs : List Char} {ts : List Token}
    (h : scanFrom start cs = .ok ts) {t : Token} (ht : t ∈ ts) :
    Cut t.text.toList t.kind [] := by
  induction cs using scan_induction generalizing start ts with
  | nil =>
    rw [scanFrom_nil] at h
    cases h
    exact absurd ht List.not_mem_nil
  | separator c cs hc ih =>
    rw [scanFrom_separator hc] at h
    exact ih h ht
  | token text kind rest hcut ih =>
    rw [hcut.scanFrom_append] at h
    cases hr : scanFrom (start + Text.byteLength text) rest with
    | error e =>
      rw [hr, except_map_error] at h
      cases h
    | ok us =>
      rw [hr, except_map_ok] at h
      cases h
      rcases List.mem_cons.1 ht with rfl | ht
      · exact String.toList_ofList ▸ hcut.alone
      · exact ih hr ht
  | unterminated cs body hu =>
    rw [scanFrom_unterminated hu] at h
    cases h

/-- A text without tokens is a gap. -/
theorem isSeparator_of_scanFrom {start : Nat} {cs : List Char} (h : scanFrom start cs = .ok []) :
    ∀ c ∈ cs, isSeparator c := by
  induction cs using scan_induction generalizing start with
  | nil => exact nofun
  | separator c cs hc ih =>
    rw [scanFrom_separator hc] at h
    exact List.forall_mem_cons.2 ⟨hc, ih h⟩
  | token text kind rest hcut =>
    rw [hcut.scanFrom_append] at h
    obtain ⟨us, -, hus⟩ := map_eq_ok.1 h
    cases hus
  | unterminated cs body hu => cases (scanFrom_unterminated hu start).symm.trans h

/-- The tokens of a text are found again when it is followed by something that ends a word. -/
theorem scanFrom_append_of_delimited {start : Nat} {cs : List Char} {ts : List Token}
    (h : scanFrom start cs = .ok ts) {ds : List Char} (hd : Delimited ds) :
    scanFrom start (cs ++ ds) = (ts ++ ·) <$> scanFrom (start + Text.byteLength cs) ds := by
  induction cs using scan_induction generalizing start ts with
  | nil =>
    rw [scanFrom_nil] at h
    cases h
    exact (id_map _).symm
  | separator c cs hc ih =>
    rw [scanFrom_separator hc] at h
    rw [List.cons_append, scanFrom_separator hc, ih h, Text.byteLength_cons, Nat.add_assoc start]
  | token text kind rest hcut ih =>
    rw [hcut.scanFrom_append] at h
    obtain ⟨us, hr, rfl⟩ := map_eq_ok.1 h
    rw [List.append_assoc, (hcut.append hd).scanFrom_append, ih hr, Text.byteLength_append,
      Nat.add_assoc start, ← comp_map]
    rfl
  | unterminated cs body hu =>
    rw [scanFrom_unterminated hu] at h
    cases h

/-- The tokens of a text are found again when a separator and more text follow it. -/
theorem scanFrom_append {start : Nat} {cs : List Char} {ts : List Token}
    (h : scanFrom start cs = .ok ts) {c : Char} (hc : isSeparator c) (ds : List Char) :
    scanFrom start (cs ++ c :: ds) =
      (ts ++ ·) <$> scanFrom (start + Text.byteLength cs + c.utf8Size) ds := by
  have hd : Delimited (c :: ds) := delimited_cons.2 (isWordChar_of_isSeparator hc)
  rw [scanFrom_append_of_delimited h hd, scanFrom_separator hc]

end Token

end SmallLisp
