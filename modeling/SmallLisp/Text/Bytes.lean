/-! The UTF-8 form of text: lengths and cuts counted in bytes, and the reading
of bytes that may stop within a character. -/

namespace SmallLisp.Text

/-- The length of a text in bytes. -/
def byteLength (cs : List Char) : Nat := cs.foldr (fun c n => c.utf8Size + n) 0

@[simp] theorem byteLength_nil : byteLength [] = 0 := rfl

@[simp] theorem byteLength_cons (c : Char) (cs : List Char) :
    byteLength (c :: cs) = c.utf8Size + byteLength cs := rfl

@[simp] theorem byteLength_append (cs ds : List Char) :
    byteLength (cs ++ ds) = byteLength cs + byteLength ds := by
  induction cs with
  | nil => simp
  | cons c cs ih => simp [ih, Nat.add_assoc]

theorem utf8ByteSize_ofList (cs : List Char) :
    (String.ofList cs).utf8ByteSize = byteLength cs := by
  induction cs with
  | nil => rw [String.ofList_nil]; rfl
  | cons c cs ih =>
    rw [String.ofList_cons, String.utf8ByteSize_append, String.utf8ByteSize_singleton, ih,
      byteLength_cons]

theorem byteLength_toList (s : String) : byteLength s.toList = s.utf8ByteSize := by
  rw [← utf8ByteSize_ofList, String.ofList_toList]

/-- The characters that lie within the first `n` bytes. -/
def takeBytes : Nat → List Char → List Char
  | _, [] => []
  | n, c :: cs => if c.utf8Size ≤ n then c :: takeBytes (n - c.utf8Size) cs else []

/-- The bytes of a text. -/
def encode (s : String) : Array UInt8 := s.toUTF8.data

/-- The text that bytes encode, if they encode any. -/
def decode? (bytes : Array UInt8) : Option String := String.fromUTF8? ⟨bytes⟩

/-- Bytes that encode a text give it back. -/
theorem decode?_encode (s : String) : decode? (encode s) = some s := by
  unfold decode? encode String.fromUTF8?
  rw [String.toUTF8_eq_toByteArray, dif_pos s.isValidUTF8]
  rfl

/-- The text of bytes of which the last ones may be missing: a character that
was cut is shown as one replacement character. -/
def decodeCut (bytes : Array UInt8) : String :=
  let without (n : Nat) : Option String :=
    (decode? (bytes.take (bytes.size - n))).map (· ++ "\ufffd")
  (decode? bytes <|> without 1 <|> without 2 <|> without 3).getD ""

end SmallLisp.Text
