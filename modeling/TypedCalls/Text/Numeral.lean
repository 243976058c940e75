/-!
Numerals in text. Blanks around a numeral do not count, the digits of every script do, and a single
underscore may stand between two digits.
-/

set_option autoImplicit false

namespace TypedCalls.Text

def blankRanges : List (Nat × Nat) :=
  [(0x9, 0xd), (0x20, 0x20), (0x85, 0x85), (0xa0, 0xa0), (0x1680, 0x1680), (0x2000, 0x200a),
   (0x2028, 0x2029), (0x202f, 0x202f), (0x205f, 0x205f), (0x3000, 0x3000)]

def isBlank (c : Char) : Bool :=
  blankRanges.any fun range => range.1 ≤ c.toNat && c.toNat ≤ range.2

theorem isBlank_of_isWhitespace {c : Char} (white : c.isWhitespace = true) : isBlank c = true := by
  simp only [Char.isWhitespace, Bool.or_eq_true, decide_eq_true_eq] at white
  rcases white with ((rfl | rfl) | rfl) | rfl <;> decide

def trimmed (cs : List Char) : List Char :=
  ((cs.dropWhile isBlank).reverse.dropWhile isBlank).reverse

def zeros : List Nat :=
  [0x30, 0x660, 0x6f0, 0x7c0, 0x966, 0x9e6, 0xa66, 0xae6, 0xb66, 0xbe6, 0xc66, 0xce6, 0xd66,
   0xde6, 0xe50, 0xed0, 0xf20, 0x1040, 0x1090, 0x17e0, 0x1810, 0x1946, 0x19d0, 0x1a80, 0x1a90,
   0x1b50, 0x1bb0, 0x1c40, 0x1c50, 0xa620, 0xa8d0, 0xa900, 0xa9d0, 0xa9f0, 0xaa50, 0xabf0,
   0xff10, 0x104a0, 0x10d30, 0x11066, 0x110f0, 0x11136, 0x111d0, 0x112f0, 0x11450, 0x114d0,
   0x11650, 0x116c0, 0x11730, 0x118e0, 0x11950, 0x11c50, 0x11d50, 0x11da0, 0x16a60, 0x16ac0,
   0x16b50, 0x1d7ce, 0x1d7d8, 0x1d7e2, 0x1d7ec, 0x1d7f6, 0x1e140, 0x1e2f0, 0x1e950, 0x1fbf0]

def plainDigit (c : Char) : Char :=
  match zeros.find? fun first => first ≤ c.toNat && c.toNat ≤ first + 9 with
  | some first => Nat.digitChar (c.toNat - first)
  | none => c

/-- Leave out the underscores, each of which must stand between two digits; `after` says whether a
digit came right before. -/
def ungrouped? (after : Bool) : List Char → Option (List Char)
  | [] => some []
  | '_' :: d :: cs =>
    if after && d.isDigit then (ungrouped? true cs).map (d :: ·) else none
  | c :: cs => if c = '_' then none else (ungrouped? c.isDigit cs).map (c :: ·)

theorem ungrouped?_of_not_mem {cs : List Char} (bare : '_' ∉ cs) (after : Bool) :
    ungrouped? after cs = some cs := by
  induction cs generalizing after with
  | nil => rfl
  | cons c cs ih =>
    have ne : c ≠ '_' := fun e => bare (by simp [e])
    have rest := ih (fun h => bare (List.mem_cons_of_mem c h)) c.isDigit
    rw [ungrouped?.eq_3 after c cs fun _ _ e => absurd e ne, if_neg ne, rest]
    rfl

def numeral? (s : String) : Option (List Char) :=
  ungrouped? false ((trimmed s.toList).map plainDigit)

end TypedCalls.Text
