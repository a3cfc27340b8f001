import SmallLisp.Proofs.Verdicts

/-! The marks of a text, as far as it has been read. They stand in the order of
their bytes. The brackets that are open are among them, the innermost one last, and
nothing has closed them; a closing bracket has for its partner an opening one that
stands before it, and no other has this partner. -/

namespace SmallLisp

theorem Bracket.closing_inj {a b : Bracket} : a.closing = b.closing ↔ a = b := by
  cases a <;> cases b <;> decide

namespace Prompt

/-! ### Reading a text -/

namespace Scanner

theorem char_of_step {s : Scanner} {offset : Nat} {c : Char} {b : Bracket} {partner : Option Opened}
    (h : (s.step offset c).1 = .closing b partner) : c = b.closing := by
  obtain ⟨mode, stack⟩ := s
  cases mode with
  | escape | string => cases h
  | code =>
    rcases plain_or c with rfl | ⟨b', rfl⟩ | ⟨b', rfl⟩ | hc
    · cases h
    · rw [step_opening] at h
      cases h
    · rw [step_closing] at h
      cases h
      rfl
    · rw [step_plain _ _ hc] at h
      cases h

/-- What has been read after a text that starts at a byte. -/
def read (s : Scanner) (offset : Nat) : List Char → Scanner
  | [] => s
  | c :: cs => (s.step offset c).2.read (offset + c.utf8Size) cs

end Scanner

theorem marksFrom_cons (s : Scanner) (offset : Nat) (c : Char) (cs : List Char) :
    marksFrom s offset (c :: cs) = ⟨offset, c, (s.step offset c).1⟩ ::
      marksFrom (s.step offset c).2 (offset + c.utf8Size) cs := rfl

theorem marksFrom_append (s : Scanner) (offset : Nat) (cs ds : List Char) :
    marksFrom s offset (cs ++ ds) = marksFrom s offset cs ++
      marksFrom (s.read offset cs) (offset + Text.byteLength cs) ds := by
  induction cs generalizing s offset with
  | nil => rfl
  | cons c cs ih =>
    rw [List.cons_append, marksFrom_cons, ih, Text.byteLength_cons, ← Nat.add_assoc]
    rfl

@[simp] theorem map_char_marksFrom (s : Scanner) (offset : Nat) (cs : List Char) :
    (marksFrom s offset cs).map Mark.char = cs := by
  induction cs generalizing s offset with
  | nil => rfl
  | cons c cs ih => rw [marksFrom_cons, List.map_cons, ih]

/-- A mark stands where the text before it ends, and is what its character is there. -/
theorem eq_of_marksFrom {s : Scanner} {offset : Nat} {cs : List Char} {before after : List Mark}
    {m : Mark} (h : marksFrom s offset cs = before ++ m :: after) :
    let text := before.map Mark.char
    let place := offset + Text.byteLength text
    m = ⟨place, m.char, ((s.read offset text).step place m.char).1⟩ := by
  have hcs : cs = before.map Mark.char ++ m.char :: after.map Mark.char := by
    rw [← map_char_marksFrom s offset cs, h, List.map_append, List.map_cons]
  have hlength : (marksFrom s offset (before.map Mark.char)).length = before.length := by
    rw [← List.length_map Mark.char, map_char_marksFrom, List.length_map]
  rw [hcs, marksFrom_append, marksFrom_cons] at h
  exact (List.cons.inj (List.append_inj h hlength).2).1.symm

/-- A closing bracket is one of its kind. -/
theorem char_of_closing {s : Scanner} {offset : Nat} {cs : List Char} {m : Mark} {b : Bracket}
    {partner : Option Opened} (hm : m ∈ marksFrom s offset cs)
    (h : m.role = .closing b partner) : m.char = b.closing := by
  obtain ⟨before, after, hms⟩ := List.append_of_mem hm
  exact Scanner.char_of_step ((congrArg Mark.role (eq_of_marksFrom hms)).symm.trans h)

/-- The verdict blames the first mark that is a mismatch. -/
theorem Verdict.after_eq (s : Scanner) (offset : Nat) (cs : List Char) :
    after s offset cs = match (marksFrom s offset cs).find? (·.role.isMismatch) with
      | some m => invalid m.char m.offset
      | none => if (s.read offset cs).isComplete then valid else incomplete := by
  induction cs generalizing s offset with
  | nil => rfl
  | cons c cs ih =>
    rw [marksFrom_cons]
    cases hm : (s.step offset c).1.isMismatch with
    | true =>
      rw [List.find?_cons_of_pos (by exact hm)]
      exact if_pos hm
    | false =>
      rw [List.find?_cons_of_neg (by simp [hm]), after_cons hm, ih]
      rfl

/-! ### Brackets and their partners -/

/-- The mark of an opening bracket. -/
def Opened.mark (o : Opened) : Mark := ⟨o.offset, o.bracket.opening, .opening o.bracket⟩

/-- The opening bracket that a closing one takes for its partner. -/
def Mark.partner? (m : Mark) : Option Opened :=
  match m.role with
  | .closing _ partner => partner
  | _ => none

/-- The marks of a text up to a byte, and the brackets that it leaves open. -/
structure Tracks (ms : List Mark) (stop : Nat) (stack : List Opened) : Prop where
  sorted : ms.Pairwise fun m n => m.offset < n.offset
  lt_stop : ∀ m ∈ ms, m.offset < stop
  nested : stack.Pairwise fun inner outer => outer.offset < inner.offset
  opening : ∀ o ∈ stack, o.mark ∈ ms
  unclosed : ∀ o ∈ stack, ∀ m ∈ ms, ∀ p, m.partner? = some p → p.offset ≠ o.offset
  paired : ∀ m ∈ ms, ∀ o, m.partner? = some o → o.mark ∈ ms ∧ o.offset < m.offset
  unique : ∀ m ∈ ms, ∀ n ∈ ms, ∀ o p, m.partner? = some o → n.partner? = some p →
    o.offset = p.offset → m = n

namespace Tracks

variable {ms : List Mark} {stop : Nat} {stack rest : List Opened} {m : Mark}

private theorem mem_concat {n : Mark} : n ∈ ms ++ [m] ↔ n ∈ ms ∨ n = m := by simp

theorem nil : Tracks [] 0 [] where
  sorted := .nil
  lt_stop := nofun
  nested := .nil
  opening := nofun
  unclosed := nofun
  paired := nofun
  unique := nofun

/-- A mark that opens nothing may close one of the open brackets. -/
theorem concat (h : Tracks ms stop stack) (hm : m.offset = stop) (hrest : rest <:+ stack)
    (hp : ∀ o, m.partner? = some o → o ∈ stack ∧ ∀ p ∈ rest, o.offset ≠ p.offset) :
    Tracks (ms ++ [m]) (stop + m.char.utf8Size) rest where
  sorted := List.pairwise_append.2 ⟨h.sorted, List.pairwise_singleton .., fun n hn k hk => by
    obtain rfl := List.mem_singleton.1 hk
    exact hm ▸ h.lt_stop n hn⟩
  lt_stop n hn := by
    have hpos := m.char.utf8Size_pos
    rcases mem_concat.1 hn with hn | rfl
    · have := h.lt_stop n hn
      omega
    · omega
  nested := h.nested.sublist hrest.sublist
  opening o ho := List.mem_append_left _ (h.opening o (hrest.mem ho))
  unclosed o ho n hn p hnp := by
    rcases mem_concat.1 hn with hn | rfl
    · exact h.unclosed o (hrest.mem ho) n hn p hnp
    · exact (hp p hnp).2 o ho
  paired n hn o hno := by
    rcases mem_concat.1 hn with hn | rfl
    · obtain ⟨ho, hlt⟩ := h.paired n hn o hno
      exact ⟨List.mem_append_left _ ho, hlt⟩
    · have ho := h.opening o (hp o hno).1
      exact ⟨List.mem_append_left _ ho, hm ▸ h.lt_stop _ ho⟩
  unique n hn k hk o p hno hkp heq := by
    rcases mem_concat.1 hn with hn' | rfl <;> rcases mem_concat.1 hk with hk' | rfl
    · exact h.unique n hn' k hk' o p hno hkp heq
    · exact absurd heq (h.unclosed p (hp p hkp).1 n hn' o hno)
    · exact absurd heq.symm (h.unclosed o (hp o hno).1 k hk' p hkp)
    · rfl

/-- A mark that has no partner leaves the brackets open that are open. -/
theorem concat_unpaired (h : Tracks ms stop stack) (hm : m.offset = stop)
    (hp : m.partner? = none) : Tracks (ms ++ [m]) (stop + m.char.utf8Size) stack :=
  h.concat hm List.suffix_rfl fun _ ho => nomatch hp.symm.trans ho

/-- An opening bracket is open from then on. -/
theorem push {o : Opened} (h : Tracks ms stop stack) (ho : o.offset = stop) :
    Tracks (ms ++ [o.mark]) (stop + o.bracket.opening.utf8Size) (o :: stack) :=
  let h' := h.concat_unpaired (m := o.mark) ho rfl
  { h' with
    nested := List.pairwise_cons.2 ⟨fun p hp => ho ▸ h.lt_stop _ (h.opening p hp), h.nested⟩
    opening := List.forall_mem_cons.2 ⟨List.mem_append_right _ (List.mem_singleton_self _),
      h'.opening⟩
    -- what has a partner has an earlier one
    unclosed := by
      refine List.forall_mem_cons.2 ⟨fun n hn p hnp => ?_, h'.unclosed⟩
      rcases mem_concat.1 hn with hn' | rfl
      · have hp := (h.paired n hn' p hnp).2
        have hlt := h.lt_stop n hn'
        omega
      · cases hnp }

/-- A closing bracket closes the innermost open one. -/
theorem pop {o : Opened} (h : Tracks ms stop (o :: stack)) (hm : m.offset = stop)
    (hp : m.partner? = some o) : Tracks (ms ++ [m]) (stop + m.char.utf8Size) stack := by
  refine h.concat hm (List.suffix_cons ..) fun p hp' => ?_
  obtain rfl := Option.some.inj (hp.symm.trans hp')
  exact ⟨List.mem_cons_self, fun q hq => Nat.ne_of_gt (List.rel_of_pairwise_cons h.nested hq)⟩

theorem step {s : Scanner} (h : Tracks ms stop s.stack) (c : Char) :
    Tracks (ms ++ [⟨stop, c, (s.step stop c).1⟩]) (stop + c.utf8Size)
      (s.step stop c).2.stack := by
  obtain ⟨mode, stack⟩ := s
  cases mode with
  | escape => exact h.concat_unpaired rfl rfl
  | string => exact h.concat_unpaired rfl rfl
  | code =>
    rcases plain_or c with rfl | ⟨b, rfl⟩ | ⟨b, rfl⟩ | hc
    · exact h.concat_unpaired rfl rfl
    · rw [Scanner.step_opening]
      exact h.push (o := ⟨b, stop⟩) rfl
    · rw [Scanner.step_closing]
      cases stack with
      | nil => exact h.concat_unpaired rfl rfl
      | cons o stack => exact h.pop rfl rfl
    · rw [Scanner.step_plain _ _ hc]
      exact h.concat_unpaired rfl rfl

theorem read {s : Scanner} (h : Tracks ms stop s.stack) (cs : List Char) :
    Tracks (ms ++ marksFrom s stop cs) (stop + Text.byteLength cs) (s.read stop cs).stack := by
  induction cs generalizing s ms stop with
  | nil => exact (List.append_nil ms).symm ▸ h
  | cons c cs ih =>
    rw [marksFrom_cons, List.append_cons, Text.byteLength_cons, ← Nat.add_assoc]
    exact ih (h.step c)

end Tracks

end Prompt

end SmallLisp
