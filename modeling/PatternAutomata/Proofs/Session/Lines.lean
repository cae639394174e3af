import PatternAutomata.Session

/-!
# Reading the lines that were typed

A session reads bytes.  It cuts them at line feeds, decodes each piece and takes a carriage return
off its end.  Here this is undone: what is typed is a list of lines, each a text that is ended by a
line feed or by a carriage return and a line feed, and what is read are their texts again.

A line feed is one byte in UTF-8, and no other character has this byte in its encoding.  So cutting
the bytes cuts the text at the same places.

* `lines_flatMap_bytes`: lines that were typed are read one by one, whatever follows them.
* `decodeLine_raw`: a line that was typed is decoded to its text.
-/

namespace PatternAutomata

namespace Session

variable {text : List Char} {line : List UInt8} {rest : List UInt8}

/-! ## Encoding -/

/-- The bytes of a text. -/
def encode (text : List Char) : List UInt8 := text.flatMap String.utf8EncodeChar

theorem fromUTF8?_encode (text : List Char) :
    String.fromUTF8? (encode text).toByteArray = some (String.ofList text) := by
  have hbytes : (encode text).toByteArray = (String.ofList text).toByteArray :=
    String.toByteArray_ofList.symm
  rw [hbytes, String.fromUTF8?, dif_pos (String.ofList text).isValidUTF8]
  rfl

theorem lineFeed_ne_ofNat {n : Nat} (hlow : 128 ≤ n) (hhigh : n < 256) : 10 ≠ UInt8.ofNat n := by
  intro h
  have hn : n % 256 = 10 := (congrArg UInt8.toNat h).symm
  omega

theorem lineFeed_not_mem_utf8EncodeChar {c : Char} (h : c ≠ '\n') :
    10 ∉ String.utf8EncodeChar c := by
  have hc : c.val.toNat ≠ 10 := fun hc => h (Char.ext (UInt32.toNat_inj.mp hc))
  rw [String.utf8EncodeChar]
  generalize c.val.toNat = v at hc
  split
  · rw [List.mem_singleton]
    intro hbyte
    have hv : v % 256 = 10 := (congrArg UInt8.toNat hbyte).symm
    omega
  · -- no byte of a longer encoding is below 128
    have hlast (n : Nat) : 10 ≠ UInt8.ofNat (n % 64 + 128) :=
      lineFeed_ne_ofNat (by omega) (by omega)
    have htwo : 10 ≠ UInt8.ofNat (v / 64 % 32 + 192) := lineFeed_ne_ofNat (by omega) (by omega)
    have hthree : 10 ≠ UInt8.ofNat (v / 4096 % 16 + 224) := lineFeed_ne_ofNat (by omega) (by omega)
    have hfour : 10 ≠ UInt8.ofNat (v / 262144 % 8 + 240) := lineFeed_ne_ofNat (by omega) (by omega)
    split
    · simp only [List.mem_cons, List.not_mem_nil, hlast, htwo, or_self, not_false_eq_true]
    · split
      · simp only [List.mem_cons, List.not_mem_nil, hlast, hthree, or_self, not_false_eq_true]
      · simp only [List.mem_cons, List.not_mem_nil, hlast, hfour, or_self, not_false_eq_true]

theorem lineFeed_not_mem_encode (h : '\n' ∉ text) : 10 ∉ encode text := by
  intro hmem
  obtain ⟨c, hc, hbyte⟩ := List.mem_flatMap.mp hmem
  refine lineFeed_not_mem_utf8EncodeChar ?_ hbyte
  rintro rfl
  exact h hc

theorem decodeLine_encode (text : List Char) :
    decodeLine (encode text) = some (withoutReturn text) := by
  rw [decodeLine, fromUTF8?_encode, Option.map_some, String.toList_ofList]

theorem withoutReturn_append (text : List Char) : withoutReturn (text ++ ['\r']) = text := by
  rw [withoutReturn, if_pos List.getLast?_concat, List.dropLast_concat]

/-! ## Typed lines -/

/-- A line as it is typed.  Its text is followed by a line feed, which may have a carriage return
before it. -/
structure Line where
  text : List Char
  hasReturn : Bool
  deriving DecidableEq, Repr

namespace Line

/-- The text can be told from what ends the line: it has no line feed, and no carriage return at its
end. -/
structure Plain (l : Line) : Prop where
  lineFeed_not_mem : '\n' ∉ l.text
  getLast?_ne : l.text.getLast? ≠ some '\r'

instance (l : Line) : Decidable l.Plain :=
  decidable_of_iff ('\n' ∉ l.text ∧ l.text.getLast? ≠ some '\r')
    ⟨fun h => ⟨h.1, h.2⟩, fun h => ⟨h.1, h.2⟩⟩

/-- The bytes of a line without its line feed. -/
def raw (l : Line) : List UInt8 := encode (l.text ++ if l.hasReturn then ['\r'] else [])

/-- The bytes of a line. -/
def bytes (l : Line) : List UInt8 := l.raw ++ encode ['\n']

variable {l : Line}

theorem lineFeed_not_mem_raw (h : l.Plain) : 10 ∉ l.raw := by
  refine lineFeed_not_mem_encode ?_
  rw [List.mem_append, not_or]
  refine ⟨h.lineFeed_not_mem, ?_⟩
  split <;> decide

/-- **A line that was typed is decoded to its text.** -/
theorem decodeLine_raw (h : l.Plain) : decodeLine l.raw = some l.text := by
  rw [raw, decodeLine_encode]
  split
  · rw [withoutReturn_append]
  · rw [List.append_nil, withoutReturn, if_neg h.getLast?_ne]

end Line

/-! ## Cutting the input -/

theorem lines_append_lineFeed (h : 10 ∉ line) (rest : List UInt8) :
    lines (line ++ 10 :: rest) = line :: lines rest := by
  induction line with
  | nil => rfl
  | cons b line ih =>
    rw [List.mem_cons, not_or] at h
    obtain ⟨hb, hline⟩ := h
    rw [List.cons_append, lines, if_neg (Ne.symm hb), ih hline]

/-- **Lines that were typed are read one by one**, whatever follows them. -/
theorem lines_flatMap_bytes {typed : List Line} (h : ∀ l ∈ typed, l.Plain) (rest : List UInt8) :
    lines (typed.flatMap Line.bytes ++ rest) = typed.map Line.raw ++ lines rest := by
  induction typed with
  | nil => rfl
  | cons l typed ih =>
    obtain ⟨hl, htyped⟩ := List.forall_mem_cons.mp h
    have hbytes : l.bytes ++ (typed.flatMap Line.bytes ++ rest) =
        l.raw ++ 10 :: (typed.flatMap Line.bytes ++ rest) := by
      rw [Line.bytes, List.append_assoc]
      rfl
    rw [List.flatMap_cons, List.append_assoc, hbytes,
      lines_append_lineFeed (Line.lineFeed_not_mem_raw hl), ih htyped, List.map_cons,
      List.cons_append]

end Session

end PatternAutomata
