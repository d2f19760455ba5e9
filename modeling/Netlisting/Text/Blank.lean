/-!
# Blanks and words

Text is cut at *blanks*, the characters with the Unicode property of white space.  A text is
seen as its list of characters, so that cutting is plain recursion: `pieces` cuts at every
separator and keeps the empty pieces, `words` keeps only the pieces that hold something.

`pieces` loses nothing but the separators (`length_pieces`) and no piece holds one
(`not_sep_of_mem_pieces`).  A word holds something, and no blank (`of_mem_words`).
-/

namespace Netlisting.Text

/-- Closed ranges of code points, ascending and apart. -/
def blankRanges : List (Nat × Nat) :=
  [(0x09, 0x0D), (0x20, 0x20), (0x85, 0x85), (0xA0, 0xA0), (0x1680, 0x1680), (0x2000, 0x200A),
   (0x2028, 0x2029), (0x202F, 0x202F), (0x205F, 0x205F), (0x3000, 0x3000)]

def inRanges (ranges : List (Nat × Nat)) (code : Nat) : Bool :=
  ranges.any fun range => range.1 ≤ code && code ≤ range.2

def isBlank (c : Char) : Bool := inRanges blankRanges c.toNat

/-- Every separator ends a piece, so a text with `n` separators has `n + 1` pieces. -/
def pieces (sep : Char → Bool) : List Char → List (List Char)
  | [] => [[]]
  | c :: rest =>
    if sep c then [] :: pieces sep rest
    else match pieces sep rest with
      | [] => [[c]]
      | piece :: more => (c :: piece) :: more

theorem pieces_ne_nil (sep : Char → Bool) (text : List Char) : pieces sep text ≠ [] := by
  cases text with
  | nil => simp [pieces]
  | cons c rest =>
    unfold pieces
    split
    · simp
    · split <;> simp

theorem not_sep_of_mem_pieces (sep : Char → Bool) (text : List Char) :
    ∀ piece ∈ pieces sep text, ∀ c ∈ piece, sep c = false := by
  induction text with
  | nil => simp [pieces]
  | cons c rest ih =>
    intro piece hpiece d hd
    unfold pieces at hpiece
    split at hpiece
    · rcases List.mem_cons.1 hpiece with rfl | h
      · simp at hd
      · exact ih piece h d hd
    · next hc =>
      split at hpiece
      · next h => exact absurd h (pieces_ne_nil sep rest)
      · next first more h =>
        rcases List.mem_cons.1 hpiece with rfl | hmore
        · rcases List.mem_cons.1 hd with rfl | hd
          · simpa using hc
          · exact ih first (by rw [h]; exact List.mem_cons_self ..) d hd
        · exact ih piece (by rw [h]; exact List.mem_cons_of_mem _ hmore) d hd

theorem length_pieces (sep : Char → Bool) (text : List Char) :
    (pieces sep text).length = (text.filter sep).length + 1 := by
  induction text with
  | nil => rfl
  | cons c rest ih =>
    unfold pieces
    split
    · next h => simp [h, ih]
    · next h =>
      split
      · next hnil => exact absurd hnil (pieces_ne_nil sep rest)
      · next piece more hcons => simpa [h, hcons] using ih

/-- The pieces between blanks that hold something. -/
def words (text : List Char) : List (List Char) :=
  (pieces isBlank text).filter fun piece => !piece.isEmpty

theorem of_mem_words {text word : List Char} (h : word ∈ words text) :
    word ≠ [] ∧ ∀ c ∈ word, isBlank c = false := by
  obtain ⟨hpiece, hne⟩ := List.mem_filter.1 h
  exact ⟨by simpa using hne, not_sep_of_mem_pieces isBlank text word hpiece⟩

def trimStart (text : List Char) : List Char := text.dropWhile isBlank

def trim (text : List Char) : List Char :=
  (trimStart (trimStart text).reverse).reverse

/-- Every occurrence of `pattern` gives way to `by_`, from left to right and without overlap; an
empty pattern replaces nothing. -/
def replace (pattern by_ : List Char) (text : List Char) : List Char :=
  if pattern.isEmpty then text else go 0 text
where
  /-- `skip` characters of an occurrence already replaced are still to be passed over. -/
  go (skip : Nat) : List Char → List Char
    | [] => []
    | c :: rest =>
      match skip with
      | skip + 1 => go skip rest
      | 0 =>
        if pattern.isPrefixOf (c :: rest) then by_ ++ go (pattern.length - 1) rest
        else c :: go 0 rest

/-- The texts in order with `separator` between neighbours. -/
def join (separator : String) (texts : List String) : String := separator.intercalate texts

end Netlisting.Text
