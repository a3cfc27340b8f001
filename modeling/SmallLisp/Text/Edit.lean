import SmallLisp.Text.Bytes

/-! Edits of a text at places that are counted in bytes. A byte within a character,
or behind the end of the text, is no place for an edit. -/

namespace SmallLisp.Text

/-- Cuts a text at a byte, where a character begins or the text ends. -/
def splitBytes? (n : Nat) (cs : List Char) : Option (List Char × List Char) :=
  let before := takeBytes n cs
  if byteLength before = n then some (before, cs.drop before.length) else none

/-- Puts a text in the place of the `size` bytes from `start` on. -/
def replaceBytes? (start size : Nat) (new cs : List Char) : Option (List Char) := do
  let (before, rest) ← splitBytes? start cs
  let (_, after) ← splitBytes? size rest
  return before ++ (new ++ after)

theorem takeBytes_append (cs ds : List Char) : takeBytes (byteLength cs) (cs ++ ds) = cs := by
  induction cs with
  | nil =>
    cases ds with
    | nil => rfl
    | cons d ds => exact if_neg (Nat.not_le.2 d.utf8Size_pos)
  | cons c cs ih =>
    rw [List.cons_append, takeBytes, byteLength_cons, if_pos (Nat.le_add_right ..),
      Nat.add_sub_cancel_left, ih]

theorem splitBytes?_append (cs ds : List Char) :
    splitBytes? (byteLength cs) (cs ++ ds) = some (cs, ds) := by
  rw [splitBytes?, takeBytes_append, if_pos rfl, List.drop_left]

theorem replaceBytes?_append (before old new after : List Char) :
    replaceBytes? (byteLength before) (byteLength old) new (before ++ (old ++ after)) =
      some (before ++ (new ++ after)) := by
  rw [replaceBytes?, splitBytes?_append]
  dsimp only [Option.bind_eq_bind, Option.bind_some]
  rw [splitBytes?_append]
  rfl

end SmallLisp.Text
