namespace Deductions

/-- Whether `s` can be a label: letters, digits and hyphens of ASCII, at least one of them. -/
def isLabel (s : String) : Bool :=
  !s.isEmpty && s.toList.all fun c => c.isAlphanum || c == '-'

/-- One of the dot-separated parts of a pre-release or of build metadata. -/
structure Label where
  text : String
  valid : isLabel text = true
deriving DecidableEq

namespace Label

/-- Whether the label is a numeral. -/
def isNumeral (l : Label) : Bool := l.text.toList.all Char.isDigit

/-- The digits of a numeral without its leading zeros. -/
def digits (l : Label) : List Char := l.text.toList.dropWhile (· == '0')

/-- Whether the label is a numeral of several digits that starts with a zero. -/
def hasLeadingZero (l : Label) : Bool :=
  l.isNumeral && l.text.toList.head? == some '0' && l.text.length != 1

/-- Numerals come before other labels. -/
def rank (l : Label) : Nat := if l.isNumeral then 0 else 1

/-- The number of digits that count in a numeral. -/
def weight (l : Label) : Nat := if l.isNumeral then l.digits.length else 0

/-- What is compared character by character. -/
def body (l : Label) : List Char := if l.isNumeral then l.digits else l.text.toList

/-- Numerals are compared by their value and then by their length, other labels as texts. -/
protected def compare : Label → Label → Ordering :=
  compareLex (compareOn rank) <| compareLex (compareOn weight) <|
    compareLex (compareOn body) (compareOn fun l => l.text.toList.length)

instance : Ord Label := ⟨Label.compare⟩

instance : Std.TransOrd Label := by
  unfold Std.TransOrd
  change Std.TransCmp Label.compare
  unfold Label.compare
  infer_instance

theorem replicate_append_dropWhile (cs : List Char) :
    List.replicate (cs.length - (cs.dropWhile (· == '0')).length) '0' ++ cs.dropWhile (· == '0') =
      cs := by
  induction cs with
  | nil => rfl
  | cons c rest ih =>
    by_cases zero : c = '0'
    · subst zero
      have shorter : (rest.dropWhile (· == '0')).length ≤ rest.length :=
        (List.dropWhile_sublist _).length_le
      simp only [List.dropWhile_cons, beq_self_eq_true, if_true, List.length_cons]
      rw [show rest.length + 1 - (rest.dropWhile (· == '0')).length =
        (rest.length - (rest.dropWhile (· == '0')).length) + 1 by omega, List.replicate_succ,
        List.cons_append, ih]
    · simp [zero]

theorem ext_of_body {a b : Label} (rank : a.rank = b.rank) (body : a.body = b.body)
    (length : a.text.toList.length = b.text.toList.length) : a = b := by
  have same : a.text.toList = b.text.toList := by
    unfold Label.rank at rank
    unfold Label.body at body
    split at rank <;> split at rank <;> simp_all
    rw [← replicate_append_dropWhile a.text.toList, ← replicate_append_dropWhile b.text.toList]
    simp only [digits] at body
    rw [body]
    simp [length]
  cases a; cases b
  simp_all [String.toList_inj]

instance : Std.LawfulEqOrd Label where
  eq_of_compare {a b} same := by
    change Label.compare a b = .eq at same
    simp only [Label.compare, compareLex_eq_eq, compareOn, Std.LawfulEqCmp.compare_eq_iff_eq]
      at same
    exact ext_of_body same.1 same.2.2.1 same.2.2.2

end Label

/-- A semantic version. No numeral of the pre-release starts with an idle zero. -/
structure Version where
  major : UInt64
  minor : UInt64
  patch : UInt64
  pre : List Label := []
  build : List Label := []
  pre_plain : pre.all (fun l => !l.hasLeadingZero) = true := by rfl
deriving DecidableEq

namespace Version

/-- The version of three numbers and no labels. -/
def plain (major minor patch : UInt64) : Version where
  major := major
  minor := minor
  patch := patch

instance : Inhabited Version := ⟨plain 0 0 0⟩

/-- The labels of the pre-release joined by dots. -/
def preText (v : Version) : String := ".".intercalate (v.pre.map Label.text)

/-- The labels of the build metadata joined by dots. -/
def buildText (v : Version) : String := ".".intercalate (v.build.map Label.text)

def text (v : Version) : String :=
  s!"{v.major.toNat}.{v.minor.toNat}.{v.patch.toNat}" ++
    (if v.pre.isEmpty then "" else "-" ++ v.preText) ++
    (if v.build.isEmpty then "" else "+" ++ v.buildText)

instance : ToString Version := ⟨text⟩

/-- A version without a pre-release comes after all its pre-releases. -/
def preRank (v : Version) : Nat := if v.pre.isEmpty then 1 else 0

/-- By the numbers, the pre-release and the build metadata, in this order. -/
protected def compare : Version → Version → Ordering :=
  compareLex (compareOn major) <| compareLex (compareOn minor) <| compareLex (compareOn patch) <|
    compareLex (compareOn preRank) <| compareLex (compareOn pre) (compareOn build)

instance : Ord Version := ⟨Version.compare⟩

instance : Std.TransOrd Version := by
  unfold Std.TransOrd
  change Std.TransCmp Version.compare
  unfold Version.compare
  infer_instance

instance : Std.LawfulEqOrd Version where
  eq_of_compare {a b} same := by
    change Version.compare a b = .eq at same
    simp only [Version.compare, compareLex_eq_eq, compareOn, Std.LawfulEqCmp.compare_eq_iff_eq]
      at same
    cases a; cases b
    simp_all

instance : LT Version := ltOfOrd

instance : LE Version := leOfOrd

end Version

end Deductions
