-- SUMMARY: Texts as lists of characters: white space, trimming, cutting into words and lines.

/-!
# Texts

A text is a list of characters. White space is the Unicode property
`White_Space`, whose 25 members `Text.isBlank` lists. A text is cut into words
at its blanks and into lines at its line feeds; `Text.cut` does both cuts.
-/

namespace StackMachine

/-- A text, as the list of its characters. -/
abbrev Text := List Char

namespace Text

/-! ## White space -/

/-- The code points of Unicode's `White_Space` property, as closed ranges. -/
def blankRanges : List (Nat × Nat) :=
  [(0x9, 0xD), (0x20, 0x20), (0x85, 0x85), (0xA0, 0xA0), (0x1680, 0x1680), (0x2000, 0x200A),
   (0x2028, 0x2029), (0x202F, 0x202F), (0x205F, 0x205F), (0x3000, 0x3000)]

/-- Is the character white space? -/
def isBlank (c : Char) : Bool :=
  blankRanges.any fun (low, high) => low ≤ c.toNat && c.toNat ≤ high

/-- White space in the narrower sense of `Char.isWhitespace` is white space. -/
theorem isBlank_of_isWhitespace {c : Char} (h : c.isWhitespace) : isBlank c := by
  simp only [Char.isWhitespace, Bool.or_eq_true, decide_eq_true_eq] at h
  rcases h with ((rfl | rfl) | rfl) | rfl <;> rfl

def trimLeft (t : Text) : Text :=
  t.dropWhile isBlank

def trimRight (t : Text) : Text :=
  (t.reverse.dropWhile isBlank).reverse

/-- Drop the white space at both ends. -/
def trim (t : Text) : Text :=
  trimRight (trimLeft t)

/-! ## Words and lines -/

/-- The stretches between the characters of the class `p`, in order. There is
    one more of them than there are such characters. -/
def cut (p : Char → Bool) : Text → List Text
  | [] => [[]]
  | c :: t => if p c then [] :: cut p t else (cut p t).modifyHead (c :: ·)

@[simp] theorem cut_nil {p : Char → Bool} : cut p [] = [[]] := rfl

theorem length_cut (p : Char → Bool) (t : Text) : (cut p t).length = t.countP p + 1 := by
  induction t with
  | nil => rfl
  | cons c t ih => by_cases h : p c <;> simp [cut, h, ih]

theorem cut_ne_nil (p : Char → Bool) (t : Text) : cut p t ≠ [] :=
  List.ne_nil_of_length_eq_add_one (length_cut p t)

/-- A cut in front of a text and a cut behind it do not meet across a character
    of the class. -/
theorem cut_append_cons {p : Char → Bool} {c : Char} (hc : p c) (s t : Text) :
    cut p (s ++ c :: t) = cut p s ++ cut p t := by
  induction s with
  | nil => simp [cut, hc]
  | cons d s ih =>
    by_cases hd : p d
    · simp [cut, hd, ih]
    · obtain ⟨w, ws, hw⟩ := List.exists_cons_of_ne_nil (cut_ne_nil p s)
      simp [cut, hd, ih, hw]

/-- A text without characters of the class is one stretch. -/
theorem cut_eq_singleton {p : Char → Bool} {t : Text} (h : ∀ c ∈ t, p c = false) :
    cut p t = [t] := by
  induction t with
  | nil => rfl
  | cons c t ih =>
    have hc : p c = false := h c List.mem_cons_self
    have ht : cut p t = [t] := ih fun d hd => h d (List.mem_cons_of_mem c hd)
    simp [cut, hc, ht]

/-- The words of a text: its longest stretches without white space. -/
def words (t : Text) : List Text :=
  (cut isBlank t).filter (· ≠ [])

@[simp] theorem words_nil : words [] = [] := rfl

theorem words_append_cons {c : Char} (hc : isBlank c) (s t : Text) :
    words (s ++ c :: t) = words s ++ words t := by
  simp [words, cut_append_cons hc]

theorem words_cons {c : Char} (hc : isBlank c) (t : Text) : words (c :: t) = words t :=
  words_append_cons hc [] t

/-- A text without white space is one word, unless it is empty. -/
theorem words_eq_singleton {t : Text} (hne : t ≠ []) (h : ∀ c ∈ t, isBlank c = false) :
    words t = [t] := by
  simp [words, cut_eq_singleton h, hne]

/-- A carriage return that ends a line belongs to the line's terminator. -/
def dropReturn (line : Text) : Text :=
  if line.getLast? = some '\r' then line.dropLast else line

/-- The lines of the stretches between line feeds. No line feed ends the last
    stretch, which is no line if it is empty. -/
def linesOf : List Text → List Text
  | [] => []
  | [last] => if last = [] then [] else [last]
  | line :: rest => dropReturn line :: linesOf rest

/-- The lines of a text. A line ends at a line feed, or at a carriage return
    and a line feed; a final line feed opens no further line. -/
def lines (t : Text) : List Text :=
  linesOf (cut (· = '\n') t)

end Text

end StackMachine
