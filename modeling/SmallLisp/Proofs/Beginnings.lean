import SmallLisp.Proofs.Likeness
import SmallLisp.Proofs.Readiness
import SmallLisp.Proofs.Shift.Parsing

/-! Texts that begin a program. If the prompt would hand over the beginning of a
program, then what it hands over is a program by itself, and so is what follows
it after a gap: its tokens are the first ones of the whole, its brackets nest, and
no form of the whole reaches over its end. Gaps at the ends of a text change
nothing but the places in it. -/

namespace SmallLisp

open Token (scanFrom)

/-! ### Forms up to a place where brackets nest -/

/-- Brackets below the ones that tokens close stay open. -/
theorem openAfter_append_stack {stack stack' : List Bracket} {ts : List Token}
    (h : openAfter stack ts = some stack') (outer : List Bracket) :
    openAfter (stack ++ outer) ts = some (stack' ++ outer) := by
  induction ts generalizing stack with
  | nil =>
    obtain rfl := Option.some.inj h
    rfl
  | cons t ts ih =>
    obtain ⟨next, hn, hts⟩ := Option.bind_eq_some_iff.1 h
    have hnext : t.kind.track (stack ++ outer) = some (next ++ outer) := by
      cases hk : t.kind with
      | opening b =>
        rw [hk] at hn
        cases hn
        rfl
      | closing b =>
        rw [hk] at hn
        cases stack with
        | nil => cases hn
        | cons c inner =>
          rw [TokenKind.track] at hn
          split at hn
          · next hb =>
            cases hn
            exact if_pos hb
          · cases hn
      | number | string | boolean | identifier | keyword =>
        rw [hk] at hn
        cases hn
        rfl
    rw [openAfter, hnext]
    exact ih hts

theorem openAfter_append {stack : List Bracket} (ts us : List Token) :
    openAfter stack (ts ++ us) = (openAfter stack ts).bind (openAfter · us) := by
  induction ts generalizing stack with
  | nil => rfl
  | cons t ts ih =>
    rw [List.cons_append, openAfter, openAfter, Option.bind_assoc]
    exact congrArg _ (funext fun next => ih)

/-- The tokens of a pair of brackets do not nest before the last of them. -/
theorem Brackets.not_nested_of_append {b : Bracket} (p : Brackets b) {inside us vs : List Token}
    (hi : Nested inside) (h : p.around inside = us ++ vs) (hu : us ≠ []) (hv : vs ≠ []) :
    ¬Nested us := by
  intro hn
  obtain ⟨u, us, rfl⟩ := List.exists_cons_of_ne_nil hu
  obtain ⟨vs, v, rfl⟩ := (List.eq_nil_or_concat vs).resolve_left hv
  rw [around, List.cons_append, List.cons.injEq, List.concat_eq_append, ← List.append_assoc] at h
  obtain ⟨rfl, hinside⟩ := h
  obtain ⟨rfl, -⟩ := List.append_inj' hinside rfl
  rw [Nested, openAfter_append] at hi
  obtain ⟨stack, hs, -⟩ := Option.bind_eq_some_iff.1 hi
  rw [Nested, openAfter_opening] at hn
  have hopen := openAfter_append_stack hs [b]
  rw [List.nil_append, hn] at hopen
  have := congrArg List.length (Option.some.inj hopen)
  rw [List.length_append] at this
  cases this

theorem Form.not_nested_of_append (f : Form) {us vs : List Token} (h : f.tokens = us ++ vs)
    (hu : us ≠ []) (hv : vs ≠ []) : ¬Nested us := by
  cases f with
  | atom a =>
    obtain ⟨u, us, rfl⟩ := List.exists_cons_of_ne_nil hu
    have hnil := (List.cons.inj h).2
    exact absurd (List.append_eq_nil_iff.1 hnil.symm).2 hv
  | list p items => exact p.not_nested_of_append (nested_tokensAll items) h hu hv
  | round p c => exact p.not_nested_of_append c.nested_tokens h hu hv

/-- Where the brackets among the first tokens nest, a form ends. -/
theorem Form.exists_split {fs : List Form} {us vs : List Token} (h : tokensAll fs = us ++ vs)
    (hn : Nested us) : ∃ gs hs, fs = gs ++ hs ∧ tokensAll gs = us ∧ tokensAll hs = vs := by
  induction fs generalizing us with
  | nil =>
    obtain ⟨rfl, rfl⟩ := List.append_eq_nil_iff.1 h.symm
    exact ⟨[], [], rfl, rfl, rfl⟩
  | cons f fs ih =>
    rw [tokensAll] at h
    rcases List.append_eq_append_iff.1 h with ⟨ws, rfl, hws⟩ | ⟨ws, hf, hws⟩
    · have hnested : Nested ws := by
        rw [Nested, f.openAfter_tokens] at hn
        exact hn
      obtain ⟨gs, hs, rfl, rfl, rfl⟩ := ih hws hnested
      exact ⟨f :: gs, hs, rfl, rfl, rfl⟩
    · by_cases hu : us = []
      · subst hu
        exact ⟨[], f :: fs, rfl, rfl, h⟩
      by_cases hv : ws = []
      · subst hv
        rw [List.append_nil] at hf
        refine ⟨[f], fs, rfl, (List.append_nil _).trans hf, hws.symm⟩
      · exact absurd hn (f.not_nested_of_append hf hu hv)

/-! ### Verdicts on beginnings -/

namespace Prompt.Verdict

/-- A text is past help whatever follows it, or else it leads to some state of the
scanner. -/
theorem after_append (s : Scanner) (offset : Nat) (cs : List Char) :
    (∃ c place, ∀ ds, after s offset (cs ++ ds) = .invalid c place) ∨
    ∃ next, ∀ ds, after s offset (cs ++ ds) = after next (offset + Text.byteLength cs) ds := by
  induction cs generalizing s offset with
  | nil => exact .inr ⟨s, fun ds => rfl⟩
  | cons c cs ih =>
    by_cases hm : (s.step offset c).1.isMismatch
    · refine .inl ⟨c, offset, fun ds => ?_⟩
      simp [after, hm]
    · have hstep (ds : List Char) := after_cons (Bool.eq_false_iff.2 hm) (cs ++ ds)
      simp only [List.cons_append, hstep, Text.byteLength_cons, ← Nat.add_assoc]
      exact ih _ _

variable {cs ds : List Char}

/-- The beginning of a text that is ready is not past help. -/
theorem not_invalid_of_append (h : ofChars (cs ++ ds) = .valid) (c : Char) (place : Nat) :
    ofChars cs ≠ .invalid c place := by
  obtain ⟨d, at_, hinvalid⟩ | ⟨next, hnext⟩ := after_append .start 0 cs
  · cases h.symm.trans (hinvalid ds)
  · have hend := hnext []
    rw [List.append_nil] at hend
    rw [ofChars, hend, after]
    split <;> intro hc <;> cases hc

/-- In a string a gap is read as part of the string. -/
theorem after_gap_ne_valid {gap : List Char} (h : ∀ c ∈ gap, isSeparator c)
    (stack : List Opened) (offset : Nat) {mode : Mode} (hm : mode ≠ .code) :
    after ⟨mode, stack⟩ offset gap ≠ .valid := by
  induction gap generalizing mode offset with
  | nil =>
    cases mode with
    | code => exact absurd rfl hm
    | string | escape =>
      intro h
      cases h
  | cons c gap ih =>
    obtain ⟨hc, hgap⟩ := List.forall_mem_cons.1 h
    have hq : c ≠ '"' := by
      rintro rfl
      cases hc
    have hb : c ≠ '\\' := by
      rintro rfl
      cases hc
    cases mode with
    | code => exact absurd rfl hm
    | string =>
      have hs := Scanner.step_stringChar stack offset hq hb
      rw [after_cons (by rw [hs]; rfl), hs]
      exact ih hgap _ (by decide)
    | escape =>
      rw [after_cons rfl]
      exact ih hgap _ (by decide)

/-- Without the gap at its end a text that is ready is still ready. -/
theorem of_append_gap {gap : List Char} (hg : ∀ c ∈ gap, isSeparator c)
    (h : ofChars (cs ++ gap) = .valid) : ofChars cs = .valid := by
  obtain ⟨d, at_, hinvalid⟩ | ⟨⟨mode, stack⟩, hnext⟩ := after_append .start 0 cs
  · cases h.symm.trans (hinvalid gap)
  · have hend := hnext []
    rw [List.append_nil] at hend
    have hgap := (hnext gap).symm.trans h
    cases mode with
    | string | escape => exact absurd hgap (after_gap_ne_valid hg stack _ (by decide))
    | code =>
      rw [← List.append_nil gap, after_gap hg] at hgap
      rw [ofChars, hend]
      exact hgap

end Prompt.Verdict

open Prompt (Verdict)

/-- A text that is ready is cut into tokens if the text that it begins is. -/
theorem exists_tokens_of_append {cs ds : List Char} {start : Nat} {ts : List Token}
    (hv : Verdict.ofChars cs = .valid) (h : scanFrom start (cs ++ ds) = .ok ts) :
    ∃ us, scanFrom 0 cs = .ok us := by
  rcases exists_cuts_or_stuck cs with ⟨g, hg⟩ | ⟨before, body, hcut, hb, rest, hr, htext⟩
  · exact ⟨_, (Segmentation.cuts_iff_cutting.1 hg).scanFrom_eq 0⟩
  · obtain ⟨more, rfl⟩ := Verdict.blocked_of_eq_valid hcut hb hr htext hv
    -- what follows does not help: the string stays stuck before the line feed
    have hstuck : StuckAfter (cs ++ ds) before body :=
      ⟨hcut, hb, _, .lineFeed (more ++ ds), by rw [htext]; simp⟩
    cases (hstuck.scanFrom_eq start).symm.trans h

/-! ### Programs and gaps -/

theorem parseText_nil : parseText (String.ofList []) = .ok [] :=
  parseText_eq_nil.2 (Token.scanFrom_nil 0)

section Gaps

variable {gap : List Char} (hg : ∀ c ∈ gap, isSeparator c)
include hg

/-- After a gap there are the tokens of what follows, further on. -/
theorem exists_tokens_of_gap {start : Nat} {cs : List Char} {ts : List Token}
    (h : scanFrom start (gap ++ cs) = .ok ts) :
    ∃ us n, scanFrom 0 cs = .ok us ∧ us.map (Token.shift n) = ts := by
  rw [scanFrom_gap hg, ← Nat.zero_add (start + Text.byteLength gap), Token.scanFrom_add,
    bimap_eq_ok] at h
  obtain ⟨us, hu, hts⟩ := h
  exact ⟨us, _, hu, hts⟩

/-- After a gap there is the program that follows, further on. -/
theorem exists_parseText_of_gap {cs : List Char} {forms : List Node}
    (h : parseText (String.ofList (gap ++ cs)) = .ok forms) :
    ∃ xs n, parseText (String.ofList cs) = .ok xs ∧ xs.map (Node.shift n) = forms := by
  obtain ⟨ts, ht, hp⟩ := parseText_eq_ok.1 h
  rw [tokenize, String.toList_ofList] at ht
  obtain ⟨us, n, hu, rfl⟩ := exists_tokens_of_gap hg ht
  rw [parse, parseMany_shift, bimap_eq_ok] at hp
  obtain ⟨xs, hxs, hforms⟩ := hp
  exact ⟨xs, n, parseText_eq_ok.2 ⟨us, by rw [tokenize, String.toList_ofList, hu], hxs⟩, hforms⟩

/-- A program that begins with a text that is ready, and goes on after a gap, falls
into what the two are by themselves. -/
theorem exists_parseText_append {cs ds : List Char} {forms : List Node}
    (hv : Verdict.ofChars cs = .valid) (hd : gap = [] → ds = [])
    (h : parseText (String.ofList (cs ++ (gap ++ ds))) = .ok forms) :
    ∃ xs ys n, parseText (String.ofList cs) = .ok xs ∧ parseText (String.ofList ds) = .ok ys ∧
      forms = xs ++ ys.map (Node.shift n) := by
  cases gap with
  | nil =>
    obtain rfl := hd rfl
    rw [List.append_nil, List.append_nil] at h
    exact ⟨forms, [], 0, h, parseText_nil, (List.append_nil _).symm⟩
  | cons w gap =>
    obtain ⟨hw, hgap⟩ := List.forall_mem_cons.1 hg
    obtain ⟨fs, ht, rfl⟩ := parseText_eq_ok_iff_forms.1 h
    rw [tokenize, String.toList_ofList] at ht
    obtain ⟨us, hu⟩ := exists_tokens_of_append hv ht
    have hsource : tokenize (String.ofList cs) = .ok us := by
      rw [tokenize, String.toList_ofList, hu]
    rw [List.cons_append, Token.scanFrom_append hu hw] at ht
    obtain ⟨vs, hvs, hfs⟩ := map_eq_ok.1 ht
    obtain ⟨ws, n, hws, rfl⟩ := exists_tokens_of_gap hgap hvs
    have hnested : Nested us := by
      refine (Verdict.of_eq_valid_iff_nested hsource).1 ?_
      rw [Verdict.of, String.toList_ofList, hv]
    obtain ⟨gs, hs, rfl, rfl, hhs⟩ := Form.exists_split hfs.symm hnested
    have hrest := parse_tokensAll hs
    rw [hhs, parse, parseMany_shift, bimap_eq_ok] at hrest
    obtain ⟨ys, hys, hmap⟩ := hrest
    refine ⟨Form.nodes gs, ys, n, parseText_eq_ok_iff_forms.2 ⟨gs, hsource, rfl⟩,
      parseText_eq_ok.2 ⟨ws, by rw [tokenize, String.toList_ofList, hws], hys⟩, ?_⟩
    rw [hmap, Form.nodes_eq_map, Form.nodes_eq_map, Form.nodes_eq_map, List.map_append]

end Gaps

end SmallLisp
