/-!
# Letters in either case

Simple case folding for the Latin letters of ASCII and the Cyrillic letters from U+0400 to
U+045F with U+0490 and U+0491, and the characters elsewhere that fold onto one of them: the
Kelvin sign and the long s, and the small Cyrillic variants from U+1C80 to U+1C86. Every other
character stands for itself.
-/

set_option autoImplicit false

namespace Vetting.Text

/-- Characters outside the letter blocks, and the letter that each folds to. -/
def foldExceptions : List (Nat × Nat) :=
  [(0x212A, 0x6B), (0x17F, 0x73), (0x490, 0x491), (0x1C80, 0x432), (0x1C81, 0x434),
    (0x1C82, 0x43E), (0x1C83, 0x441), (0x1C84, 0x442), (0x1C85, 0x442), (0x1C86, 0x44A)]

/-- The lower-case letter that a code point folds to; a code point without case stays. -/
def fold (n : Nat) : Nat :=
  if 0x41 ≤ n ∧ n ≤ 0x5A then n + 32
  else if 0x410 ≤ n ∧ n ≤ 0x42F then n + 32
  else if 0x400 ≤ n ∧ n ≤ 0x40F then n + 80
  else (foldExceptions.lookup n).getD n

/-- All code points that fold to the same letter as this one. -/
def caseVariants (n : Nat) : List Nat :=
  let letter := fold n
  let capitals :=
    if 0x61 ≤ letter ∧ letter ≤ 0x7A then [letter - 32]
    else if 0x430 ≤ letter ∧ letter ≤ 0x44F then [letter - 32]
    else if 0x450 ≤ letter ∧ letter ≤ 0x45F then [letter - 80]
    else []
  letter :: capitals ++ (foldExceptions.filter fun entry => entry.2 == letter).map Prod.fst

end Vetting.Text
