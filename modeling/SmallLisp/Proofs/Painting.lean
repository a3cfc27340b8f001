import Mathlib.Data.List.Basic
import SmallLisp.Prompt.Highlight
import SmallLisp.Proofs.Marks

/-! The painted text, mark by mark. The highlighter writes an opening bracket plain
and paints it anew when its partner turns up. At any time it has written what the
marks so far look like, each in a style that can be read off the marks; the brackets
that are open stand where they have been recorded, since all that is painted anew
lies behind them. -/

namespace SmallLisp.Prompt

/-! ### What a mark looks like -/

/-- The mark that closes the opening bracket at a byte. -/
def closerOf? (ms : List Mark) (offset : Nat) : Option Mark :=
  ms.find? fun m => m.partner?.any (·.offset == offset)

/-- The colour of a closing bracket. -/
def closerColour? (cursor : Nat) (m : Mark) : Option Colour :=
  match m.role with
  | .closing b (some o) => pairColour? cursor o b m.offset
  | .closing _ none => some .red
  | _ => none

/-- The colour of a mark. An opening bracket has that of the one that closes it. -/
def colour? (ms : List Mark) (cursor : Nat) (m : Mark) : Option Colour :=
  match m.role with
  | .plain => none
  | .string => some .green
  | .opening _ => (closerOf? ms m.offset).bind (closerColour? cursor)
  | .closing .. => closerColour? cursor m

def Role.isOpening : Role → Bool
  | opening _ => true
  | _ => false

def style? (ms : List Mark) (cursor : Nat) (m : Mark) : Option Style :=
  (colour? ms cursor m).map (⟨·, m.role.isOpening⟩)

/-- A mark as it is painted. -/
def ink (ms : List Mark) (cursor : Nat) (m : Mark) : List Char :=
  paint (style? ms cursor m) m.char

theorem colour?_mark (ms : List Mark) (cursor : Nat) (o : Opened) :
    colour? ms cursor o.mark = (closerOf? ms o.offset).bind (closerColour? cursor) := rfl

theorem ink_mark (ms : List Mark) (cursor : Nat) (o : Opened) :
    ink ms cursor o.mark =
      paint ((colour? ms cursor o.mark).map (⟨·, true⟩)) o.bracket.opening := rfl

theorem pairColour?_ne_green (cursor : Nat) (o : Opened) (b : Bracket) (offset : Nat) :
    pairColour? cursor o b offset ≠ some .green := by
  unfold pairColour?
  split
  · exact nofun
  · split <;> exact nofun

theorem closerColour?_ne_green (cursor : Nat) (m : Mark) :
    closerColour? cursor m ≠ some .green := by
  unfold closerColour?
  split
  · exact pairColour?_ne_green _ _ _ _
  · exact nofun
  · exact nofun

theorem colour?_eq_green_iff {ms : List Mark} {cursor : Nat} {m : Mark} :
    colour? ms cursor m = some .green ↔ m.role = .string := by
  unfold colour?
  split
  · next h => simp [h]
  · next h => simp [h]
  · next h =>
    refine ⟨fun hg => ?_, fun hs => nomatch h.symm.trans hs⟩
    obtain ⟨n, -, hn⟩ := Option.bind_eq_some_iff.1 hg
    exact absurd hn (closerColour?_ne_green cursor n)
  · next h =>
    exact ⟨fun hg => absurd hg (closerColour?_ne_green cursor m),
      fun hs => nomatch h.symm.trans hs⟩

section Concat

variable {ms : List Mark} {m n : Mark} {cursor offset : Nat}

theorem closerOf?_eq_some (h : closerOf? ms offset = some m) :
    m ∈ ms ∧ ∃ o, m.partner? = some o ∧ o.offset = offset := by
  rw [closerOf?] at h
  have hany := List.find?_some h
  obtain ⟨o, ho, hoffset⟩ := (Option.any_eq_true ..).1 hany
  exact ⟨List.mem_of_find?_eq_some h, o, ho, beq_iff_eq.1 hoffset⟩

theorem closerOf?_eq_none (h : ∀ m ∈ ms, ∀ o, m.partner? = some o → o.offset ≠ offset) :
    closerOf? ms offset = none := by
  refine List.find?_eq_none.2 fun m hm => ?_
  cases hp : m.partner? with
  | none => exact Bool.false_ne_true
  | some o => simpa using h m hm o hp

theorem closerOf?_concat_of_ne (h : ∀ o, n.partner? = some o → o.offset ≠ offset) :
    closerOf? (ms ++ [n]) offset = closerOf? ms offset := by
  have hn : closerOf? [n] offset = none := closerOf?_eq_none (List.forall_mem_singleton.2 h)
  rw [closerOf?, List.find?_append]
  exact (congrArg (Option.or _) hn).trans (Option.or_none ..)

theorem closerOf?_concat_self {o : Opened} (hn : n.partner? = some o)
    (h : ∀ m ∈ ms, ∀ p, m.partner? = some p → p.offset ≠ o.offset) :
    closerOf? (ms ++ [n]) o.offset = some n := by
  have hms : closerOf? ms o.offset = none := closerOf?_eq_none h
  rw [closerOf?, List.find?_append]
  refine (congrArg (Option.or · _) hms).trans ?_
  rw [Option.none_or]
  exact List.find?_cons_of_pos (by simp [hn])

/-- A new mark makes a difference only for its partner. -/
theorem flatMap_ink_concat {l : List Mark}
    (h : ∀ o, n.partner? = some o → ∀ m ∈ l, o.offset ≠ m.offset) :
    l.flatMap (ink (ms ++ [n]) cursor) = l.flatMap (ink ms cursor) := by
  refine List.flatMap_congr fun m hm => ?_
  rw [ink, ink, style?, style?, colour?, colour?, closerOf?_concat_of_ne fun o ho => h o ho m hm]

end Concat

/-! ### Painting anew -/

namespace Painter

variable {p : Painter} {r : Recorded} {left right : List Char}

theorem repaint?_eq (hout : p.output = left ++ r.bracket.opening :: right)
    (hr : r.place = Text.byteLength left) (style : Style) :
    p.repaint? r style =
      some { p with output := left ++ (paint (some style) r.bracket.opening ++ right) } := by
  have hsize : Text.byteLength [r.bracket.opening] = 1 := by
    cases r.bracket <;> rfl
  have hedit := Text.replaceBytes?_append left [r.bracket.opening]
    (paint (some style) r.bracket.opening) right
  rw [hsize, ← hr, List.singleton_append, ← hout] at hedit
  rw [repaint?, hedit]
  rfl

/-- A closing bracket decides the style of both brackets. -/
theorem closing?_eq {stack : List Recorded} (hs : p.stack = r :: stack)
    (hout : p.output = left ++ r.bracket.opening :: right) (hr : r.place = Text.byteLength left)
    (cursor offset : Nat) (b : Bracket) :
    p.closing? cursor offset b =
      let colour := pairColour? cursor r.toOpened b offset
      some ⟨p.mode, stack, left ++ (paint (colour.map (⟨·, true⟩)) r.bracket.opening ++
        (right ++ paint (colour.map (⟨·, false⟩)) b.closing))⟩ := by
  rw [closing?, hs]
  cases hc : pairColour? cursor r.toOpened b offset with
  | none =>
    simp only [hc, write, hout, List.append_assoc, List.cons_append]
    rfl
  | some colour =>
    simp only [hc]
    refine (@repaint?_eq _ r left (right ++ paint (some ⟨colour, false⟩) b.closing) ?_ hr _).trans
      rfl
    rw [write, hout, List.append_assoc, List.cons_append]

section Code

variable (hm : p.mode = .code) (cursor offset : Nat)
include hm

theorem step?_opening (b : Bracket) :
    p.step? cursor offset b.opening = some (p.opening offset b) := by
  rw [step?, hm]
  cases b <;> rfl

theorem step?_closing (b : Bracket) :
    p.step? cursor offset b.closing = p.closing? cursor offset b := by
  rw [step?, hm]
  cases b <;> rfl

theorem step?_plain {c : Char} (hc : Plain c) :
    p.step? cursor offset c = some (p.write none c) := by
  simp [step?, hm, hc.ne_quote, hc.ofBracket?_eq]

end Code

end Painter

/-! ### How far a line has been painted -/

/-- A record points to its bracket, in what is painted of the marks. -/
def Recorded.PointsInto (r : Recorded) (ms : List Mark) (cursor : Nat) : Prop :=
  ∃ l l', ms = l ++ r.mark :: l' ∧ r.place = Text.byteLength (l.flatMap (ink ms cursor))

/-- A painter has read what a scanner has read, and has written the marks. -/
structure Paints (cursor : Nat) (ms : List Mark) (s : Scanner) (p : Painter) : Prop where
  mode : p.mode = s.mode
  stack : p.stack.map Recorded.toOpened = s.stack
  output : p.output = ms.flatMap (ink ms cursor)
  place : ∀ r ∈ p.stack, r.PointsInto ms cursor

namespace Tracks

variable {ms l l' : List Mark} {stop : Nat} {stack : List Opened} {m n : Mark}

theorem lt_of_eq_append (h : Tracks ms stop stack) (hms : ms = l ++ m :: l') (hn : n ∈ l) :
    n.offset < m.offset := by
  subst hms
  exact (List.pairwise_append.1 h.sorted).2.2 n hn m List.mem_cons_self

theorem gt_of_eq_append (h : Tracks ms stop stack) (hms : ms = l ++ m :: l') (hn : n ∈ l') :
    m.offset < n.offset := by
  subst hms
  exact List.rel_of_pairwise_cons (List.pairwise_append.1 h.sorted).2.1 hn

end Tracks

/-- What is painted anew lies behind the brackets that are still open. -/
theorem Recorded.PointsInto.concat {r : Recorded} {ms : List Mark} {cursor stop : Nat}
    {stack : List Opened} {n : Mark} (h : r.PointsInto ms cursor) (ht : Tracks ms stop stack)
    (hn : ∀ o, n.partner? = some o → r.offset < o.offset) :
    r.PointsInto (ms ++ [n]) cursor := by
  obtain ⟨l, l', hms, hplace⟩ := h
  refine ⟨l, l' ++ [n], by rw [hms, List.append_assoc, List.cons_append], ?_⟩
  rw [flatMap_ink_concat, hplace]
  intro o ho m hm
  have hlt : m.offset < r.offset := ht.lt_of_eq_append hms hm
  have hro := hn o ho
  omega

namespace Paints

variable {cursor stop : Nat} {ms : List Mark} {s : Scanner} {p : Painter} {n : Mark}

theorem start (cursor : Nat) : Paints cursor [] .start .start := ⟨rfl, rfl, rfl, nofun⟩

/-- A mark that has no partner is written in its own style. -/
theorem write (h : Paints cursor ms s p) (ht : Tracks ms stop s.stack) (hn : n.partner? = none)
    (mode : Mode) :
    Paints cursor (ms ++ [n]) { s with mode }
      ({ p with mode }.write (style? (ms ++ [n]) cursor n) n.char) where
  mode := rfl
  stack := h.stack
  output := by
    rw [List.flatMap_append, flatMap_ink_concat (fun o ho => nomatch hn.symm.trans ho), ← h.output,
      List.flatMap_singleton]
    rfl
  place r hr := (h.place r hr).concat ht fun o ho => nomatch hn.symm.trans ho

/-- An opening bracket is written plain, and its place is kept. -/
theorem opening (h : Paints cursor ms s p) (ht : Tracks ms stop s.stack) (b : Bracket) :
    Paints cursor (ms ++ [Opened.mark ⟨b, stop⟩]) { s with stack := ⟨b, stop⟩ :: s.stack }
      (p.opening stop b) := by
  have hcloser : closerOf? (ms ++ [Opened.mark ⟨b, stop⟩]) stop = none :=
    closerOf?_eq_none ((ht.push (o := ⟨b, stop⟩) rfl).unclosed _ List.mem_cons_self)
  have hplain : style? (ms ++ [Opened.mark ⟨b, stop⟩]) cursor (Opened.mark ⟨b, stop⟩) = none := by
    rw [style?, colour?_mark, hcloser]
    rfl
  have hwrite := h.write (n := Opened.mark ⟨b, stop⟩) ht rfl p.mode
  rw [hplain] at hwrite
  refine ⟨h.mode, congrArg (Opened.mk b stop :: ·) h.stack, hwrite.output,
    List.forall_mem_cons.2 ⟨⟨ms, [], rfl, ?_⟩, hwrite.place⟩⟩
  rw [flatMap_ink_concat (n := Opened.mark ⟨b, stop⟩) (fun _ ho => nomatch ho), ← h.output]

/-- A bracket that is open has been written plain, where its record points. -/
theorem exists_split {r : Recorded} (h : Paints cursor ms s p) (ht : Tracks ms stop s.stack)
    (hr : r ∈ p.stack) :
    ∃ l l', ms = l ++ r.mark :: l' ∧ r.place = Text.byteLength (l.flatMap (ink ms cursor)) ∧
      p.output = l.flatMap (ink ms cursor) ++ r.bracket.opening :: l'.flatMap (ink ms cursor) := by
  obtain ⟨l, l', hms, hplace⟩ := h.place r hr
  have hopen := ht.unclosed r.toOpened (h.stack ▸ List.mem_map_of_mem hr)
  have hplain : ink ms cursor r.mark = [r.bracket.opening] := by
    rw [ink_mark, colour?_mark, closerOf?_eq_none hopen]
    rfl
  refine ⟨l, l', hms, hplace, ?_⟩
  rw [h.output, ← List.singleton_append, ← hplain, ← List.flatMap_cons, ← List.flatMap_append,
    ← hms]

/-- A closing bracket is written, and its partner is painted anew in its place. -/
theorem closing {o : Opened} {rest : List Opened} (h : Paints cursor ms s p)
    (ht : Tracks ms stop s.stack) (hs : s.stack = o :: rest) (b : Bracket) :
    ∃ q, p.closing? cursor stop b = some q ∧
      Paints cursor (ms ++ [⟨stop, b.closing, .closing b (some o)⟩])
        { s with stack := rest } q := by
  obtain ⟨r, stack, hstack, rfl, rfl⟩ := List.map_eq_cons_iff.1 (h.stack.trans hs)
  obtain ⟨l, l', hms, hplace, hout⟩ := h.exists_split ht (hstack ▸ List.mem_cons_self)
  have hopen := ht.unclosed r.toOpened (hs ▸ List.mem_cons_self)
  generalize hn : Mark.mk stop b.closing (.closing b (some r.toOpened)) = n
  have hpartner : n.partner? = some r.toOpened := hn ▸ rfl
  refine ⟨_, Painter.closing?_eq hstack hout hplace cursor stop b, h.mode, rfl, ?_, ?_⟩
  · -- of the marks before, only the partner looks different now
    have hsame (k : List Mark) (hk : ∀ m ∈ k, r.offset ≠ m.offset) :
        k.flatMap (ink (ms ++ [n]) cursor) = k.flatMap (ink ms cursor) := by
      refine flatMap_ink_concat fun o ho => ?_
      obtain rfl := Option.some.inj (hpartner.symm.trans ho)
      exact hk
    have hbefore := hsame l fun m hm => Nat.ne_of_gt (ht.lt_of_eq_append hms hm)
    have hbehind := hsame l' fun m hm => Nat.ne_of_lt (ht.gt_of_eq_append hms hm)
    have hpair : ink (ms ++ [n]) cursor r.mark =
        paint ((closerColour? cursor n).map (⟨·, true⟩)) r.bracket.opening := by
      rw [ink_mark, colour?_mark, closerOf?_concat_self hpartner hopen]
      rfl
    have hsplit (f : Mark → List Char) : (ms ++ [n]).flatMap f =
        l.flatMap f ++ (f r.mark ++ (l'.flatMap f ++ f n)) := by
      simp [hms]
    rw [hsplit, hbefore, hbehind, hpair, ← hn]
    rfl
  · intro q hq
    refine (h.place q (hstack ▸ List.mem_cons_of_mem r hq)).concat ht fun o ho => ?_
    obtain rfl := Option.some.inj (hpartner.symm.trans ho)
    have hnested := ht.nested
    rw [hs] at hnested
    exact List.rel_of_pairwise_cons hnested (List.mem_map_of_mem hq)

theorem step (h : Paints cursor ms s p) (ht : Tracks ms stop s.stack) (c : Char) :
    ∃ q, p.step? cursor stop c = some q ∧
      Paints cursor (ms ++ [⟨stop, c, (s.step stop c).1⟩]) (s.step stop c).2 q := by
  obtain ⟨mode, stack⟩ := s
  obtain ⟨mode', records, output⟩ := p
  obtain rfl : mode' = mode := h.mode
  cases mode' with
  | escape => exact ⟨_, rfl, h.write ht rfl .string⟩
  | string => exact ⟨_, rfl, h.write ht rfl _⟩
  | code =>
    rcases plain_or c with rfl | ⟨b, rfl⟩ | ⟨b, rfl⟩ | hc
    · exact ⟨_, rfl, h.write ht rfl .string⟩
    · rw [Scanner.step_opening]
      exact ⟨_, Painter.step?_opening rfl cursor stop b, h.opening ht b⟩
    · rw [Scanner.step_closing, Painter.step?_closing rfl]
      cases stack with
      | nil =>
        obtain rfl : records = [] := List.map_eq_nil_iff.1 h.stack
        exact ⟨_, rfl, h.write ht rfl .code⟩
      | cons o stack => exact h.closing ht rfl b
    · rw [Scanner.step_plain _ _ hc]
      exact ⟨_, Painter.step?_plain rfl cursor stop hc, h.write ht rfl .code⟩

theorem read (h : Paints cursor ms s p) (ht : Tracks ms stop s.stack) (cs : List Char) :
    ∃ q, p.read? cursor stop cs = some q ∧
      Paints cursor (ms ++ marksFrom s stop cs) (s.read stop cs) q := by
  induction cs generalizing s ms stop p with
  | nil => exact ⟨p, rfl, (List.append_nil ms).symm ▸ h⟩
  | cons c cs ih =>
    obtain ⟨q, hq, hstep⟩ := h.step ht c
    rw [marksFrom_cons, List.append_cons, Painter.read?, hq]
    exact ih hstep (ht.step c)

end Paints

/-- The line in colours is the characters of the line, each in its style. -/
theorem highlight?_eq (line : String) (cursor : Nat) :
    highlight? line cursor =
      some (String.ofList ((marks line).flatMap (ink (marks line) cursor))) := by
  obtain ⟨p, hp, h⟩ := (Paints.start cursor).read .nil line.toList
  rw [highlight?, hp, Option.map_some, h.output]
  rfl

end SmallLisp.Prompt
