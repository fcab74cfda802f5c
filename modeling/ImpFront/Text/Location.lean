/-! Places in a source text. A place is a number of UTF-8 bytes from the start; `locate` turns it
into a line and a column. A line ends at `\r\n`, at a lone `\r` or at a lone `\n`, and columns count
characters. -/

namespace ImpFront

/-- Number of UTF-8 bytes of a text. -/
def byteSize : List Char → Nat
  | [] => 0
  | c :: cs => c.utf8Size + byteSize cs

@[simp] theorem byteSize_nil : byteSize [] = 0 := rfl

@[simp] theorem byteSize_cons (c : Char) (cs : List Char) :
    byteSize (c :: cs) = c.utf8Size + byteSize cs := rfl

@[simp] theorem byteSize_append (as bs : List Char) :
    byteSize (as ++ bs) = byteSize as + byteSize bs := by
  induction as with
  | nil => simp
  | cons c as ih => simp [ih, Nat.add_assoc]

/-- A line and a column, both counted from one. -/
structure Location where
  line : UInt32
  column : UInt32
  deriving DecidableEq, Repr

namespace Location

/-- The next line. Lines are counted by a signed word, which does not go past its largest value. -/
def nextLine? (line : Int32) : Option Int32 :=
  if line = Int32.maxValue then none else some (line + 1)

/-- The column behind a number of characters. The number is cut down to a word, and nothing is next
to the largest word. -/
def columnAfter? (count : Nat) : Option UInt32 :=
  if UInt32.ofNat count = 4294967295 then none else some (UInt32.ofNat count + 1)

/-- Where one gets by reading a text on line `line`, behind `count` characters of it; nothing if a
counter would overflow. -/
def after? (line : Int32) (count : Nat) : List Char → Option Location
  | [] => (columnAfter? count).map fun column => ⟨line.toUInt32, column⟩
  | '\r' :: '\n' :: cs => (nextLine? line).bind fun line => after? line 0 cs
  | c :: cs =>
    if c = '\r' ∨ c = '\n' then (nextLine? line).bind fun line => after? line 0 cs
    else after? line (count + 1) cs

end Location

/-- The first `n` bytes of a text, or all of it if it is shorter; nothing if they end inside a
character. -/
def takeBytes : Nat → List Char → Option (List Char)
  | 0, _ => some []
  | _ + 1, [] => some []
  | n + 1, c :: cs =>
    if c.utf8Size ≤ n + 1 then (takeBytes (n + 1 - c.utf8Size) cs).map (c :: ·) else none

/-- The line and column of a byte offset; an offset past the end counts as the end. There is none
inside a character, and none behind more line breaks or characters than the counters can count. -/
def locate (source : String) (pos : Nat) : Option Location :=
  (takeBytes pos source.toList).bind (Location.after? 1 0)

theorem takeBytes_byteSize (as bs : List Char) : takeBytes (byteSize as) (as ++ bs) = some as := by
  induction as with
  | nil => simp [takeBytes]
  | cons c as ih =>
    have hc := c.utf8Size_pos
    obtain ⟨n, hn⟩ : ∃ n, byteSize (c :: as) = n + 1 :=
      ⟨c.utf8Size + byteSize as - 1, by simp; omega⟩
    rw [List.cons_append, hn, takeBytes, ← hn]
    simp [ih]

end ImpFront
