/-! # Blank characters

The characters with the White_Space property, and the removal of blank ends. -/
namespace RobustMargin.Text

def blankCodes : List Nat :=
  [0x9, 0xA, 0xB, 0xC, 0xD, 0x20, 0x85, 0xA0, 0x1680, 0x2000, 0x2001, 0x2002, 0x2003, 0x2004,
    0x2005, 0x2006, 0x2007, 0x2008, 0x2009, 0x200A, 0x2028, 0x2029, 0x202F, 0x205F, 0x3000]

def isBlank (c : Char) : Bool := blankCodes.contains c.toNat

theorem isBlank_of_isWhitespace (c : Char) (h : c.isWhitespace) : isBlank c := by
  simp only [Char.isWhitespace, Bool.or_eq_true, decide_eq_true_eq] at h
  rcases h with ((h | h) | h) | h <;> subst h <;> decide

/-- Removes the blank characters at both ends. -/
def trimBlank (text : String) : String :=
  String.ofList ((text.toList.dropWhile isBlank).reverse.dropWhile isBlank).reverse

/-- Lowers the letters `A` to `Z` and no others. -/
def lowerAscii (text : String) : String := text.map Char.toLower

/-- The form in which names of options are compared: trimmed, lowered, and with every hyphen
written as an underscore. -/
def optionWord (text : String) : String :=
  (lowerAscii (trimBlank text)).map fun c => if c = '-' then '_' else c

end RobustMargin.Text
